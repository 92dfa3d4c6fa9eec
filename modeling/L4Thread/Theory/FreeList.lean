import L4Thread.Kernel.FreeList
import L4Thread.Theory.Kmem

/-!
# The free list in memory

The allocators of `kmem_t` do to the list that is threaded through the memory what those of `Kmem`
do to a list of addresses. They find a run of chunks only if the list goes on behind it, and freeing
a block restores the list it was taken from.
-/

namespace L4Thread

open Chain

namespace Kmem

variable {curr address i n : Nat} {L A B rest : List Nat} {aligned : Nat → Bool}

/-- A run of `n` chunks of the list starts at `address`. -/
def HasRun (L : List Nat) (n address : Nat) : Prop := ∃ A B, L = A ++ run address 0 n ++ B

/-- The list goes on behind the run. -/
def HasInnerRun (L : List Nat) (n address : Nat) : Prop :=
  ∃ A t B, L = A ++ run address 0 n ++ t :: B

theorem HasInnerRun.hasRun (h : HasInnerRun L n address) : HasRun L n address := by
  obtain ⟨A, t, B, h⟩ := h
  exact ⟨A, t :: B, h⟩

theorem run_self : run curr i i = [] := by simp [run]

/-- A run that goes on is found behind its first chunk. -/
theorem runAfter_run_append {t : Nat} (hi : i ≤ n) :
    runAfter curr i n (run curr i n ++ t :: B) = some (t :: B) := by
  induction h : n - i generalizing i with
  | zero =>
    obtain rfl : i = n := by omega
    rw [run_self, List.nil_append, runAfter, if_neg (lt_irrefl _)]
  | succ k ih =>
    have hlt : i < n := by omega
    rw [run_succ hlt, List.cons_append, runAfter, if_pos hlt, if_pos rfl]
    exact ih hlt (by omega)

theorem runAfter_ne_nil (h : runAfter curr i n L = some rest) : rest ≠ [] := by
  induction L generalizing i with
  | nil => cases h
  | cons tmp L ih =>
    rw [runAfter] at h
    split at h
    · split at h
      · exact ih h
      · cases h
    · cases h
      exact List.cons_ne_nil _ _

/-- What `findRun` finds, with the list around it. -/
theorem findRun_split (h : findRun aligned n L = some (address, rest)) (hn : 1 ≤ n) :
    ∃ A t B, L = A ++ run address 0 n ++ t :: B ∧ rest = A ++ t :: B := by
  induction L generalizing rest with
  | nil => cases h
  | cons c L ih =>
    rw [findRun] at h
    split at h
    next rest' hrun =>
      cases h
      split at hrun
      · obtain ⟨t, B, rfl⟩ := List.exists_cons_of_ne_nil (runAfter_ne_nil hrun)
        refine ⟨[], t, B, ?_, rfl⟩
        rw [run_succ (by omega), runAfter_eq hrun hn]
        simp
      · cases hrun
    next =>
      obtain ⟨⟨a, r⟩, hrec, heq⟩ := Option.map_eq_some_iff.mp h
      cases heq
      obtain ⟨A, t, B, rfl, rfl⟩ := ih hrec
      exact ⟨c :: A, t, B, rfl, rfl⟩

/-- Nothing is found if and only if no aligned run goes on. -/
theorem findRun_eq_none_iff (hn : 1 ≤ n) :
    findRun aligned n L = none ↔ ∀ a, aligned a = true → ¬HasInnerRun L n a := by
  constructor
  · intro h a ha ⟨A, t, B, hL⟩
    induction A generalizing L with
    | nil =>
      rw [List.nil_append, run_succ (by omega), List.cons_append] at hL
      subst hL
      rw [findRun, Nat.mul_zero, Nat.add_zero, if_pos ha, runAfter_run_append hn] at h
      cases h
    | cons c A ih =>
      subst hL
      rw [List.cons_append, List.cons_append, findRun] at h
      split at h
      · cases h
      · exact ih (Option.map_eq_none_iff.mp h) rfl
  · intro h
    rcases hrun : findRun aligned n L with _ | ⟨a, rest⟩
    · rfl
    · obtain ⟨A, t, B, hL, -⟩ := findRun_split hrun hn
      exact absurd ⟨A, t, B, hL⟩ (h a (findRun_perm hrun hn).1)

end Kmem

namespace KmemMemory

open Kmem

variable {m : KmemMemory} {mem : Nat → Nat} {list : Store Nat} {L A B : List Nat}
  {address size n i : Nat} {aligned : Nat → Bool}

/-- The invariant of the allocator: the memory holds the ascending list of the free chunks. -/
structure FreeList (m : KmemMemory) (L : List Nat) : Prop where
  list : m.list.IsList 0 L
  ascending : L.Pairwise (· < ·)
  aligned : ∀ c ∈ L, c % chunkSize = 0
  word : ∀ c ∈ L, c < 2 ^ 64
  count : m.freeChunks = L.length

/-! ## Allocation -/

/-- The loop over the chunks behind `curr` finds what `runAfter` finds. -/
theorem runEnd_spec {curr k tmp : Nat} (h : Leads 0 mem tmp B)
    (hB : ∀ c ∈ B, curr < c ∧ c < 2 ^ 64) (hn : chunkSize * (i + k) < 2 ^ 64) :
    (runAfter curr i (i + k) B = none ∧ runEnd mem curr i k tmp = 0) ∨
      ∃ rest, runAfter curr i (i + k) B = some rest ∧ rest ≠ [] ∧
        Leads 0 mem (runEnd mem curr i k tmp) rest := by
  induction k generalizing i tmp B with
  | zero =>
    cases B with
    | nil => exact .inl ⟨rfl, h⟩
    | cons t B =>
      refine .inr ⟨t :: B, ?_, List.cons_ne_nil _ _, h⟩
      rw [runAfter, if_neg (by omega)]
  | succ k ih =>
    rw [runEnd]
    cases B with
    | nil => exact .inl ⟨rfl, by rw [if_pos (Leads.nil_iff.mp h), Leads.nil_iff.mp h]⟩
    | cons t B =>
      obtain ⟨rfl, ht, hrest⟩ := h
      obtain ⟨hlow, hword⟩ := hB tmp List.mem_cons_self
      -- an address that wraps around is below `curr`
      have hwrap : tmp = (curr + chunkSize * i) % 2 ^ 64 ↔ tmp = curr + chunkSize * i := by
        have hi : chunkSize * i ≤ chunkSize * (i + (k + 1)) := Nat.mul_le_mul_left _ (by omega)
        omega
      rw [if_neg ht, runAfter, if_pos (by omega)]
      by_cases hnext : tmp = curr + chunkSize * i
      · rw [if_neg (not_not.mpr (hwrap.mpr hnext)), if_pos hnext, Nat.add_comm k 1, ← Nat.add_assoc]
        refine ih hrest (fun c hc => hB c (List.mem_cons_of_mem _ hc)) ?_
        rwa [Nat.add_assoc, Nat.add_comm 1]
      · rw [if_pos (mt hwrap.mp hnext), if_neg hnext]
        exact .inl ⟨rfl, rfl⟩

theorem zeroWords_of_ne {p x : Nat} (h : ∀ i < n, x ≠ p + wordSize * i) :
    zeroWords mem p n x = mem x := by
  induction n generalizing mem p with
  | zero => rfl
  | succ n ih =>
    have hp : x ≠ p := by simpa using h 0 (by omega)
    rw [zeroWords, ih, Function.update_of_ne hp]
    intro i hi
    have := h (i + 1) (by omega)
    rw [Nat.mul_add] at this
    omega

theorem zeroWords_zero {p : Nat} (h : i < n) : zeroWords mem p n (p + wordSize * i) = 0 := by
  induction n generalizing mem p i with
  | zero => cases h
  | succ n ih =>
    rw [zeroWords]
    cases i with
    | zero =>
      rw [zeroWords_of_ne, Nat.mul_zero, Nat.add_zero, Function.update_self]
      intro j hj
      simp only [wordSize]
      omega
    | succ i =>
      have hnext : p + wordSize * (i + 1) = p + wordSize + wordSize * i := by
        rw [Nat.mul_succ]
        omega
      rw [hnext]
      exact ih (by omega)

/-- The chunks of a list behind an aligned one. -/
theorem behind {c : Nat} (h : (c :: B).Pairwise (· < ·)) (hword : ∀ d ∈ c :: B, d < 2 ^ 64) :
    ∀ d ∈ B, c < d ∧ d < 2 ^ 64 := fun d hd =>
  ⟨(List.pairwise_cons.mp h).1 d hd, hword d (List.mem_cons_of_mem _ hd)⟩

/-- The memory behind a successful allocation: `t` is the chunk behind the run, and `A` are the
chunks in front of it. -/
def taken (m : KmemMemory) (A : List Nat) (t address size : Nat) : KmemMemory :=
  let list := m.list.set A.getLast? t
  { list := { list with next := zeroWords list.next address (size / wordSize) }
    freeChunks := m.freeChunks - size / chunkSize }

/-- What the loop over the free list returns, and what it leaves. -/
theorem allocLoop_spec {fuel : Nat} (aligned : Nat → Bool) (h : m.list.IsList 0 (A ++ B))
    (hasc : B.Pairwise (· < ·)) (hword : ∀ c ∈ B, c < 2 ^ 64) (hn : 1 ≤ size / chunkSize)
    (hsize : chunkSize * (size / chunkSize) < 2 ^ 64) (hfuel : B.length < fuel) :
    (findRun aligned (size / chunkSize) B = none ∧
      allocLoop aligned size m fuel A.getLast? (m.list.get A.getLast?) = some (0, m)) ∨
    ∃ address C t rest, B = C ++ run address 0 (size / chunkSize) ++ t :: rest ∧
      aligned address = true ∧ findRun aligned (size / chunkSize) B = some (address, C ++ t :: rest) ∧
      allocLoop aligned size m fuel A.getLast? (m.list.get A.getLast?) =
        some (address, m.taken (A ++ C) t address size) := by
  induction B generalizing A fuel with
  | nil =>
    obtain ⟨fuel, rfl⟩ := Nat.exists_eq_add_of_lt hfuel
    have hnull := Leads.nil_iff.mp h.leads_append
    exact .inl ⟨rfl, by rw [List.length_nil, Nat.zero_add, allocLoop, if_pos hnull]⟩
  | cons c B ih =>
    obtain ⟨fuel, rfl⟩ : ∃ k, fuel = k + 1 := ⟨fuel - 1, by omega⟩
    obtain ⟨hc, hnull, hB⟩ := h.leads_append
    rw [hc, allocLoop, if_neg hnull]
    have hbehind := behind hasc hword
    have hrun : ((if aligned c then runAfter c 1 (size / chunkSize) B else none) = none ∧
        (if aligned c then runEnd m.word c 1 (size / chunkSize - 1) (m.word c) else 0) = 0) ∨
        aligned c = true ∧ ∃ rest, runAfter c 1 (size / chunkSize) B = some rest ∧ rest ≠ [] ∧
          Leads 0 m.list.next (runEnd m.word c 1 (size / chunkSize - 1) (m.word c)) rest := by
      by_cases ha : aligned c = true
      · have hlen : 1 + (size / chunkSize - 1) = size / chunkSize := by omega
        have hspec := runEnd_spec (i := 1) (k := size / chunkSize - 1) hB hbehind (by rwa [hlen])
        rw [hlen] at hspec
        rw [if_pos ha, if_pos ha]
        exact hspec.imp id fun h => ⟨ha, h⟩
      · rw [if_neg ha, if_neg ha]
        exact .inl ⟨rfl, rfl⟩
    rcases hrun with ⟨hnone, hzero⟩ | ⟨ha, rest, hsome, hne, hleads⟩
    · -- the loop goes on at the next chunk
      have hstep : m.word c = m.list.get (A ++ [c]).getLast? := by
        rw [List.getLast?_concat]
        rfl
      have hfind : findRun aligned (size / chunkSize) (c :: B) =
          (findRun aligned (size / chunkSize) B).map fun r => (r.1, c :: r.2) := by
        rw [findRun, hnone]
      have hlen : B.length < fuel := Nat.lt_of_succ_lt_succ hfuel
      have hrec := ih (A := A ++ [c]) (by simpa using h) (List.pairwise_cons.mp hasc).2
        (fun d hd => hword d (List.mem_cons_of_mem _ hd)) hlen
      dsimp only
      rw [if_pos hzero, hstep, hfind]
      rw [List.getLast?_concat] at hrec ⊢
      rcases hrec with ⟨hnone, hloop⟩ | ⟨address, C, t, rest, hB, hal, hfound, hloop⟩
      · exact .inl ⟨by rw [hnone]; rfl, hloop⟩
      · refine .inr ⟨address, c :: C, t, rest, by rw [hB]; rfl, hal, by rw [hfound]; rfl, ?_⟩
        rw [hloop, List.append_assoc]
        rfl
    · obtain ⟨t, rest, rfl⟩ := List.exists_cons_of_ne_nil hne
      obtain ⟨ht, htnull, -⟩ := hleads
      refine .inr ⟨c, [], t, rest, ?_, ha, ?_, ?_⟩
      · rw [run_succ (by omega), runAfter_eq hsome hn]
        simp
      · rw [findRun, if_pos ha, hsome]
        rfl
      · dsimp only
        rw [if_pos ha, ht, if_neg htnull, List.append_nil]
        rfl

/-- A word of a block at the address of a chunk is the first word of a chunk of the block. -/
theorem mem_run_of_word {c j : Nat} (hc : c % chunkSize = 0) (ha : address % chunkSize = 0)
    (hj : j < chunkSize * n / wordSize) (h : c = address + wordSize * j) :
    c ∈ run address 0 n := by
  simp only [chunkSize, wordSize] at *
  simp only [run, Nat.sub_zero, List.mem_map, List.mem_range'_1, chunkSize]
  exact ⟨(c - address) / 1024, by omega, by omega⟩

theorem mem_run {c : Nat} : c ∈ run address 0 n ↔ ∃ j < n, c = address + chunkSize * j := by
  simp only [run, Nat.sub_zero, List.mem_map, List.mem_range'_1]
  constructor
  · rintro ⟨j, hj, rfl⟩
    exact ⟨j, by omega, rfl⟩
  · rintro ⟨j, hj, rfl⟩
    exact ⟨j, by omega, rfl⟩

theorem length_run : (run address 0 n).length = n := by simp [run]

/-- A successful allocation leaves the list without the run. -/
theorem FreeList.taken {t : Nat} (h : m.FreeList (A ++ run address 0 n ++ t :: B)) (hn : 1 ≤ n) :
    (m.taken A t address (chunkSize * n)).FreeList (A ++ t :: B) ∧
      ∀ i < chunkSize * n / wordSize,
        (m.taken A t address (chunkSize * n)).word (address + wordSize * i) = 0 := by
  have hsub : (A ++ t :: B).Sublist (A ++ run address 0 n ++ t :: B) := by
    rw [List.append_assoc]
    exact (List.sublist_append_right _ _).append_left A
  have hnodup := h.ascending.imp fun {a b} (hab : a < b) => hab.ne
  have hin : address ∈ A ++ run address 0 n ++ t :: B := by
    rw [run_succ hn]
    simp
  have hdisj : ∀ c ∈ A ++ t :: B, c ∉ run address 0 n := by
    intro c hc hrun
    rcases List.mem_append.mp hc with hc | hc
    · exact (List.nodup_append.mp (List.nodup_append.mp hnodup).1).2.2 c hc c hrun rfl
    · exact (List.nodup_append.mp hnodup).2.2 c (List.mem_append_right _ hrun) c hc rfl
  refine ⟨⟨?_, h.ascending.sublist hsub, fun c hc => h.aligned c (hsub.subset hc),
    fun c hc => h.word c (hsub.subset hc), ?_⟩, fun i hi => zeroWords_zero hi⟩
  · have hlist : (m.list.set A.getLast? t).IsList 0 (A ++ t :: B) := by
      have happ := h.list
      rw [List.append_assoc] at happ
      refine happ.splice (List.nodup_append.mp (List.nodup_append.mp hnodup).1).1 ?_ ?_
      · have hleads := h.list.leads_append
        rwa [hleads.1] at hleads
      · intro c hc htail
        exact (List.nodup_append.mp hnodup).2.2 c (List.mem_append_left _ hc) c htail rfl
    -- the words that are cleared belong to chunks of the run
    refine Leads.congr hlist fun c hc => zeroWords_of_ne fun j hj hcj => hdisj c hc ?_
    exact mem_run_of_word (h.aligned c (hsub.subset hc)) (h.aligned address hin) hj hcj
  · have hlen := h.count
    simp only [List.length_append, length_run, List.length_cons] at hlen
    simp only [KmemMemory.taken, List.length_append, List.length_cons]
    rw [Nat.mul_div_cancel_left _ (by decide : 0 < chunkSize)]
    omega

/-! ## Release -/

/-- The chunks of a block are linked up to the last one. -/
theorem linkChunks_spec {stop k fuel : Nat} (hstop : address + chunkSize * k = stop)
    (hword : stop < 2 ^ 64) (hfuel : k < fuel) :
    ∃ mem', linkChunks stop fuel mem address = some (stop, mem') ∧
      (∀ i < k, mem' (address + chunkSize * i) = address + chunkSize * (i + 1)) ∧
      ∀ x, (∀ i < k, x ≠ address + chunkSize * i) → mem' x = mem x := by
  induction k generalizing address mem fuel with
  | zero =>
    obtain ⟨fuel, rfl⟩ : ∃ k, fuel = k + 1 := ⟨fuel - 1, by omega⟩
    refine ⟨mem, ?_, fun i hi => absurd hi (Nat.not_lt_zero i), fun x _ => rfl⟩
    rw [Nat.mul_zero, Nat.add_zero] at hstop
    rw [linkChunks, if_neg (by omega), hstop]
  | succ k ih =>
    obtain ⟨fuel, rfl⟩ : ∃ k, fuel = k + 1 := ⟨fuel - 1, by omega⟩
    simp only [chunkSize] at hstop ih ⊢
    have hnext : (address + 1024) % 2 ^ 64 = address + 1024 := Nat.mod_eq_of_lt (by omega)
    obtain ⟨mem', hloop, hlinks, hframe⟩ := @ih (Function.update mem address (address + 1024))
      (address + 1024) fuel (by omega) (by omega)
    refine ⟨mem', ?_, fun i hi => ?_, fun x hx => ?_⟩
    · rw [linkChunks, if_pos (by omega)]
      simp only [chunkSize, hnext, Function.update_self]
      exact hloop
    · cases i with
      | zero =>
        rw [hframe _ (fun i _ => by omega)]
        simp
      | succ i =>
        have hsucc (j : Nat) : address + 1024 + 1024 * j = address + 1024 * (j + 1) := by omega
        rw [← hsucc i, ← hsucc (i + 1)]
        exact hlinks i (by omega)
    · have hx0 : x ≠ address := by simpa using hx 0 (by omega)
      rw [hframe x, Function.update_of_ne hx0]
      intro i hi hxi
      exact hx (i + 1) (by omega) (by omega)

/-- The place of a block is behind the chunks below it. -/
theorem findPlace_spec {fuel : Nat} (h : list.IsList 0 (A ++ B)) (hfuel : B.length < fuel) :
    findPlace list address fuel A.getLast? (list.get A.getLast?) =
      some ((A ++ B.takeWhile (· < address)).getLast?,
        list.get (A ++ B.takeWhile (· < address)).getLast?) := by
  induction B generalizing A fuel with
  | nil =>
    obtain ⟨fuel, rfl⟩ : ∃ k, fuel = k + 1 := ⟨fuel - 1, by omega⟩
    have hnull := Leads.nil_iff.mp h.leads_append
    rw [findPlace, if_neg (fun hc => hc.1 hnull), List.takeWhile_nil, List.append_nil]
  | cons c B ih =>
    obtain ⟨fuel, rfl⟩ : ∃ k, fuel = k + 1 := ⟨fuel - 1, by omega⟩
    obtain ⟨hc, hnull, -⟩ := h.leads_append
    rw [findPlace, hc]
    by_cases hlt : c < address
    · have hlen : B.length < fuel := Nat.lt_of_succ_lt_succ hfuel
      have hrec := ih (A := A ++ [c]) (by simpa using h) hlen
      rw [List.getLast?_concat, List.append_assoc] at hrec
      rw [if_pos ⟨hnull, hlt⟩, List.takeWhile_cons_of_pos (by simpa using hlt)]
      exact hrec
    · rw [if_neg (fun h => hlt h.2), List.takeWhile_cons_of_neg (by simpa using hlt),
        List.append_nil, hc]

/-- The chunks of a block in front of a list. -/
theorem leads_run {curr : Nat} (hn : i < n) (hpos : 0 < address)
    (hlinks : ∀ j, j + 1 < n → mem (address + chunkSize * j) = address + chunkSize * (j + 1))
    (hlast : mem (address + chunkSize * (n - 1)) = curr) (h : Leads 0 mem curr B) :
    Leads 0 mem (address + chunkSize * i) (run address i n ++ B) := by
  induction hk : n - i generalizing i with
  | zero => omega
  | succ k ih =>
    rw [run_succ hn, List.cons_append]
    refine ⟨rfl, by omega, ?_⟩
    by_cases hin : i + 1 < n
    · rw [hlinks i hin]
      exact ih hin (by omega)
    · obtain rfl : i = n - 1 := by omega
      rw [show n - 1 + 1 = n by omega, run_self, hlast]
      exact h

/-- What is freed is put in its place. -/
theorem FreeList.free {fuel : Nat} (h : m.FreeList L) (hn : 1 ≤ n) (ha : address % chunkSize = 0)
    (hpos : 0 < address) (hword : address + chunkSize * n ≤ 2 ^ 64)
    (hgap : ∀ c ∈ L, address ≤ c → address + chunkSize * n ≤ c) (hfuel : L.length < fuel)
    (hblock : n ≤ fuel) :
    ∃ m', m.free fuel address (chunkSize * n) = some m' ∧
      m'.FreeList (Kmem.free ⟨L, m.freeChunks⟩ address (chunkSize * n)).freeList ∧
      m'.freeChunks = m.freeChunks + n := by
  have hchunk : 0 < chunkSize := by decide
  have hsize : max (chunkSize * n) chunkSize = chunkSize * n :=
    Nat.max_eq_left (Nat.le_mul_of_pos_right _ hn)
  have hcount : chunkSize * n / chunkSize = n := Nat.mul_div_cancel_left n hchunk
  have hlast : chunkSize * n - chunkSize = chunkSize * (n - 1) := by rw [Nat.mul_sub_one]
  have hstop : (address + chunkSize * (n - 1)) % 2 ^ 64 = address + chunkSize * (n - 1) := by
    refine Nat.mod_eq_of_lt ?_
    rw [Nat.mul_sub_one]
    have := Nat.le_mul_of_pos_right chunkSize hn
    omega
  have hleft : n - 1 < fuel := by omega
  obtain ⟨mem', hlink, hlinks, hframe⟩ := @linkChunks_spec m.list.next address _ (n - 1) fuel rfl
    (hstop ▸ Nat.mod_lt _ (by decide)) hleft
  -- no free chunk lies in the block
  have hout {c : Nat} (hc : c ∈ L) (i : Nat) (hi : i < n) : c ≠ address + chunkSize * i := by
    intro heq
    have hle : address ≤ c := heq ▸ Nat.le_add_right _ _
    have hlt : chunkSize * i < chunkSize * n := (Nat.mul_lt_mul_left hchunk).mpr hi
    have := hgap c hc hle
    omega
  let T := L.takeWhile (· < address)
  let D := L.dropWhile (· < address)
  have hL : T ++ D = L := List.takeWhile_append_dropWhile
  let list : Store Nat := { m.list with next := mem' }
  have hlist : list.IsList 0 (T ++ D) := by
    rw [hL]
    exact Leads.congr h.list fun c hc => hframe c fun i hi => hout hc i (by omega)
  let p := address + chunkSize * (n - 1)
  let curr := list.get T.getLast?
  have hp {c : Nat} (hc : c ∈ L) : c ≠ p := hout hc (n - 1) (by omega)
  have hupd {c : Nat} (hc : c ≠ p) : (list.set (some p) curr).next c = mem' c :=
    Function.update_of_ne hc _ _
  have hrun : Leads 0 (list.set (some p) curr).next address (run address 0 n ++ D) := by
    have hlead : Leads 0 (list.set (some p) curr).next curr D :=
      hlist.leads_append.congr fun c hc =>
        hupd (hp (hL ▸ List.mem_append_right T hc))
    refine leads_run (i := 0) hn hpos (fun j hj => ?_) (Function.update_self ..) hlead
    rw [hupd]
    · exact hlinks j (by omega)
    · have hlt : chunkSize * j < chunkSize * (n - 1) := (Nat.mul_lt_mul_left hchunk).mpr (by omega)
      exact fun heq => absurd (Nat.add_left_cancel heq) hlt.ne
  have hnodup : L.Nodup := h.ascending.imp fun {a b} (hab : a < b) => hab.ne
  have hspliced : ((list.set (some p) curr).set T.getLast? address).IsList 0
      (T ++ (run address 0 n ++ D)) := by
    refine Store.IsList.splice (B := D) ?_ ?_ hrun fun c hcT hc => ?_
    · refine Leads.congr hlist fun c hc => hupd (hp ?_)
      rwa [hL] at hc
    · rw [← hL] at hnodup
      exact (List.nodup_append.mp hnodup).1
    · have hlt : c < address := by simpa using List.mem_takeWhile_imp hcT
      rcases List.mem_append.mp hc with hc | hc
      · obtain ⟨j, -, rfl⟩ := mem_run.mp hc
        omega
      · have := le_of_mem_dropWhile h.ascending hc
        omega
  have hprev : T.getLast? ≠ some p := fun heq =>
    hp ((List.takeWhile_sublist _).subset (List.mem_of_getLast? heq)) rfl
  have hfree : (Kmem.free ⟨L, m.freeChunks⟩ address (chunkSize * n)).freeList =
      T ++ (run address 0 n ++ D) := by
    rw [Kmem.free, hsize, chunks_eq_run, hcount, List.append_assoc]
  refine ⟨⟨(list.set T.getLast? address).set (some p) curr, m.freeChunks + n⟩, ?_, ?_, rfl⟩
  · have hplace : findPlace list address fuel none list.head = some (T.getLast?, curr) :=
      findPlace_spec (A := []) (hL ▸ hlist) hfuel
    rw [KmemMemory.free, hsize, hlast, hstop, hlink]
    simp only [Option.bind_eq_bind, Option.bind_some, hcount]
    rw [hplace]
    rfl
  · have hmem {c : Nat} (hc : c ∈ T ++ (run address 0 n ++ D)) :
        c ∈ L ∨ ∃ j < n, c = address + chunkSize * j := by
      rcases List.mem_append.mp hc with hc | hc
      · exact .inl (hL ▸ List.mem_append_left D hc)
      · rcases List.mem_append.mp hc with hc | hc
        · exact .inr (mem_run.mp hc)
        · exact .inl (hL ▸ List.mem_append_right T hc)
    rw [hfree]
    refine ⟨?_, ?_, fun c hc => ?_, fun c hc => ?_, ?_⟩
    · rw [Store.set_comm hprev]
      exact hspliced
    · rw [← hfree]
      refine free_ascending h.ascending fun d hd hle c hc => ?_
      obtain ⟨j, hj, rfl⟩ := mem_chunks.mp hc
      rw [hsize, hcount] at hj
      have hlt : chunkSize * j < chunkSize * n := (Nat.mul_lt_mul_left hchunk).mpr hj
      have := hgap d hd hle
      omega
    · rcases hmem hc with hc | ⟨j, -, rfl⟩
      · exact h.aligned c hc
      · rw [Nat.add_mul_mod_self_left, ha]
    · rcases hmem hc with hc | ⟨j, hj, rfl⟩
      · exact h.word c hc
      · have hlt : chunkSize * j < chunkSize * n := (Nat.mul_lt_mul_left hchunk).mpr hj
        omega
    · have hlen : L.length = T.length + D.length := by rw [← hL, List.length_append]
      have hcnt := h.count
      simp only [List.length_append, length_run]
      omega

/-! ## Completeness -/

/-- A power of two of chunks. -/
def PowerSize (size : Nat) : Prop := size < 2 ^ 64 ∧ ∃ j, size = chunkSize * 2 ^ j

theorem PowerSize.count (h : PowerSize size) :
    1 ≤ size / chunkSize ∧ chunkSize * (size / chunkSize) = size ∧ max size chunkSize = size := by
  obtain ⟨-, j, rfl⟩ := h
  have hchunk : 0 < chunkSize := by decide
  have hpow : 1 ≤ 2 ^ j := Nat.one_le_two_pow
  rw [Nat.mul_div_cancel_left _ hchunk]
  exact ⟨hpow, rfl, Nat.max_eq_left (Nat.le_mul_of_pos_right _ hpow)⟩

/-- The alignment test of the allocators. -/
theorem PowerSize.aligned_iff (h : PowerSize size) {a : Nat} :
    (a &&& (size - 1) == 0) = true ↔ size ∣ a := by
  obtain ⟨-, j, rfl⟩ := h
  have hpow : chunkSize * 2 ^ j = 2 ^ (10 + j) := by rw [Nat.pow_add]; rfl
  rw [hpow, Nat.and_two_pow_sub_one_eq_mod, beq_iff_eq, Nat.dvd_iff_mod_eq_zero]

/-- One chunk is a power of two of chunks. -/
theorem powerSize_max (h : size ≤ chunkSize ∨ PowerSize size) : PowerSize (max size chunkSize) := by
  rcases h with h | h
  · rw [Nat.max_eq_right h]
    exact ⟨by decide, 0, rfl⟩
  · rwa [h.count.2.2]

/-- What an allocation with enough fuel returns: null if no aligned run goes on, else a run, whose
words are zero and which is missing in the list. -/
theorem FreeList.allocWhere {fuel : Nat} (aligned : Nat → Bool) (h : m.FreeList L)
    (hsize : PowerSize size) (hfuel : L.length < fuel) :
    ((∀ a, aligned a = true → ¬HasInnerRun L (size / chunkSize) a) ∧
      m.allocWhere aligned size fuel = some (0, m)) ∨
    ∃ a A t B m', L = A ++ run a 0 (size / chunkSize) ++ t :: B ∧ aligned a = true ∧ a ≠ 0 ∧
      m.allocWhere aligned size fuel = some (a, m') ∧ m'.FreeList (A ++ t :: B) ∧
      ∀ i < size / wordSize, m'.word (a + wordSize * i) = 0 := by
  obtain ⟨hn, hmul, -⟩ := hsize.count
  have hword : chunkSize * (size / chunkSize) < 2 ^ 64 := by
    rw [hmul]
    exact hsize.1
  rcases allocLoop_spec (A := []) aligned h.list h.ascending h.word hn hword hfuel with
    ⟨hnone, hloop⟩ | ⟨a, A, t, B, rfl, hal, -, hloop⟩
  · exact .inl ⟨(findRun_eq_none_iff hn).mp hnone, hloop⟩
  · obtain ⟨hfree, hzero⟩ := h.taken hn
    rw [hmul] at hfree hzero
    refine .inr ⟨a, A, t, B, _, rfl, hal, ?_, hloop, hfree, hzero⟩
    refine Leads.ne_null h.list a ?_
    rw [run_succ hn]
    simp

/-- The allocators refine those of the list of addresses. -/
theorem FreeList.allocWhere_refines {fuel : Nat} (aligned : Nat → Bool) (h : m.FreeList L)
    (hsize : PowerSize size) (hfuel : L.length < fuel) :
    (Kmem.allocWhere aligned size ⟨L, m.freeChunks⟩ = none ∧
      m.allocWhere aligned size fuel = some (0, m)) ∨
    ∃ a k m', Kmem.allocWhere aligned size ⟨L, m.freeChunks⟩ = some (a, k) ∧
      m.allocWhere aligned size fuel = some (a, m') ∧ m'.FreeList k.freeList ∧
      m'.freeChunks = k.freeChunks := by
  obtain ⟨hn, hmul, -⟩ := hsize.count
  have hword : chunkSize * (size / chunkSize) < 2 ^ 64 := by
    rw [hmul]
    exact hsize.1
  rcases allocLoop_spec (A := []) aligned h.list h.ascending h.word hn hword hfuel with
    ⟨hnone, hloop⟩ | ⟨a, A, t, B, hL, hal, hfind, hloop⟩
  · exact .inl ⟨by rw [Kmem.allocWhere, hnone]; rfl, hloop⟩
  · obtain ⟨hfree, -⟩ := (hL ▸ h).taken hn
    rw [hmul] at hfree
    have halloc : Kmem.allocWhere aligned size ⟨L, m.freeChunks⟩ =
        some (a, ⟨A ++ t :: B, m.freeChunks - size / chunkSize⟩) := by
      rw [Kmem.allocWhere, hfind]
      rfl
    exact .inr ⟨a, ⟨A ++ t :: B, m.freeChunks - size / chunkSize⟩, _, halloc, hloop, hfree, rfl⟩

/-- The allocator returns null only if the list has no run of the size that is aligned to it. -/
def Complete (L : List Nat) (size : Nat) (ok : Nat → Prop)
    (x : Nat → Option (Nat × KmemMemory)) : Prop :=
  ∀ fuel, L.length < fuel → ∃ r m', x fuel = some (r, m') ∧
    (r = 0 → ∀ a, size ∣ a → ok a → ¬HasRun L (size / chunkSize) a)

/-- If there is a run at all, there is one behind which the list goes on. -/
def RunsGoOn (L : List Nat) (size : Nat) (ok : Nat → Prop) : Prop :=
  (∃ a, size ∣ a ∧ ok a ∧ HasRun L (size / chunkSize) a) →
    ∃ a, size ∣ a ∧ ok a ∧ HasInnerRun L (size / chunkSize) a

theorem FreeList.complete_iff {ok : Nat → Prop} (h : m.FreeList L) (hsize : PowerSize size)
    (hok : ∀ a, aligned a = true ↔ size ∣ a ∧ ok a) :
    Complete L size ok (m.allocWhere aligned size) ↔ RunsGoOn L size ok := by
  constructor
  · rintro hcomplete ⟨a, hdvd, ha, hrun⟩
    obtain ⟨r, m', hr, hnull⟩ := hcomplete (L.length + 1) (Nat.lt_succ_self _)
    rcases h.allocWhere aligned hsize (Nat.lt_succ_self _) with
      ⟨-, hloop⟩ | ⟨b, A, t, B, -, rfl, hal, -⟩
    · cases hr.symm.trans hloop
      exact absurd hrun (hnull rfl a hdvd ha)
    · exact ⟨b, ((hok b).mp hal).1, ((hok b).mp hal).2, A, t, B, rfl⟩
  · intro hgo fuel hfuel
    rcases h.allocWhere aligned hsize hfuel with
      ⟨hnone, hloop⟩ | ⟨b, A, t, B, m', -, -, hb, hloop, -⟩
    · refine ⟨0, m, hloop, fun _ a hdvd ha hrun => ?_⟩
      obtain ⟨b, hbdvd, hb, hinner⟩ := hgo ⟨a, hdvd, ha, hrun⟩
      exact hnone b ((hok b).mpr ⟨hbdvd, hb⟩) hinner
    · exact ⟨b, m', hloop, fun hb0 => absurd hb0 hb⟩

/-- The allocators find a run if and only if there is one behind which the list goes on. -/
theorem allocators_complete_iff (h : m.FreeList L) (hsize : PowerSize size) :
    (Complete L size (fun _ => True) (m.alloc · size) ↔ RunsGoOn L size fun _ => True) ∧
      ∀ alignment mask,
        (Complete L size (fun a => a &&& mask = alignment &&& mask)
            (m.allocAligned · size alignment mask) ↔
          RunsGoOn L size fun a => a &&& mask = alignment &&& mask) := by
  have hmax := hsize.count.2.2
  refine ⟨?_, fun alignment mask => ?_⟩
  · simp only [alloc, hmax]
    exact h.complete_iff hsize fun a => by rw [hsize.aligned_iff, and_true]
  · simp only [allocAligned, hmax]
    refine h.complete_iff hsize fun a => ?_
    rw [Bool.and_eq_true, hsize.aligned_iff, beq_iff_eq, and_comm]

/-- Two free chunks. -/
def twoChunks : KmemMemory := ⟨⟨1024, Function.update (fun _ => 0) 1024 2048⟩, 2⟩

theorem freeList_twoChunks : twoChunks.FreeList [1024, 2048] where
  list := ⟨rfl, by decide, rfl, by decide, rfl⟩
  ascending := by decide
  aligned := by decide
  word := by decide
  count := rfl

theorem powerSize_chunkSize : PowerSize chunkSize := ⟨by decide, 0, rfl⟩

/-- The first of the two chunks is found. -/
theorem complete_twoChunks :
    Complete [1024, 2048] chunkSize (fun _ => True) (twoChunks.alloc · chunkSize) :=
  (allocators_complete_iff freeList_twoChunks powerSize_chunkSize).1.mpr fun _ =>
    ⟨1024, ⟨1, rfl⟩, trivial, [], 2048, [], rfl⟩

/-- The last chunk of a list is not found. -/
theorem exists_not_complete : ∃ m : KmemMemory, m.FreeList [1024] ∧
    ¬Complete [1024] chunkSize (fun _ => True) (m.alloc · chunkSize) := by
  refine ⟨⟨⟨1024, fun _ => 0⟩, 1⟩, ⟨⟨rfl, by decide, rfl⟩, by decide, by decide, by decide, rfl⟩, ?_⟩
  intro h
  obtain ⟨r, m', hr, hnull⟩ := h 2 (by decide)
  cases hr
  exact hnull rfl 1024 ⟨1, rfl⟩ trivial ⟨[], [], rfl⟩

/-! ## Round trip -/

theorem free_max {fuel : Nat} :
    m.free fuel address (max size chunkSize) = m.free fuel address size := by
  rw [KmemMemory.free, KmemMemory.free, Nat.max_assoc, Nat.max_self]

/-- The allocator returns an aligned block of free chunks whose words are zero, and freeing it
restores the list. -/
def Restores (m : KmemMemory) (L : List Nat) (size : Nat)
    (x : Nat → Option (Nat × KmemMemory)) : Prop :=
  ∀ fuel, L.length < fuel → ∃ a m', x fuel = some (a, m') ∧
    (a ≠ 0 → max size chunkSize ∣ a ∧ HasRun L (max size chunkSize / chunkSize) a ∧
      (∀ i < max size chunkSize / wordSize, m'.word (a + wordSize * i) = 0) ∧
      ∃ m'', m'.free fuel a size = some m'' ∧ m''.FreeList L ∧ m''.freeChunks = m.freeChunks)

/-- Freeing a run that was taken out restores the list. -/
theorem FreeList.restore {k : KmemMemory} {t fuel : Nat}
    (h : m.FreeList (A ++ run address 0 n ++ t :: B)) (hk : k.FreeList (A ++ t :: B)) (hn : 1 ≤ n)
    (hfuel : (A ++ run address 0 n ++ t :: B).length < fuel) :
    ∃ k', k.free fuel address (chunkSize * n) = some k' ∧
      k'.FreeList (A ++ run address 0 n ++ t :: B) ∧ k'.freeChunks = m.freeChunks := by
  have hmem {j : Nat} (hj : j < n) :
      address + chunkSize * j ∈ A ++ run address 0 n ++ t :: B :=
    List.mem_append_left _ (List.mem_append_right _ (mem_run.mpr ⟨j, hj, rfl⟩))
  have hlast : address + chunkSize * (n - 1) + chunkSize = address + chunkSize * n := by
    rw [Nat.add_assoc, ← Nat.mul_succ, Nat.succ_eq_add_one, Nat.sub_add_cancel hn]
  have haddr : address ∈ A ++ run address 0 n ++ t :: B := by simpa using hmem (j := 0) hn
  have hal := h.aligned address haddr
  have hpos : 0 < address := Nat.pos_of_ne_zero (Leads.ne_null h.list address haddr)
  have hword : address + chunkSize * n ≤ 2 ^ 64 := by
    have hlt := h.word _ (hmem (j := n - 1) (by omega))
    simp only [chunkSize] at hal hlast hlt ⊢
    omega
  obtain ⟨hA, htail, hcross⟩ := List.pairwise_append.mp h.ascending
  have hbelow : ∀ c ∈ A, c < address := fun c hc =>
    (List.pairwise_append.mp hA).2.2 c hc address (by simpa using mem_run.mpr ⟨0, hn, rfl⟩)
  have habove : ∀ c ∈ t :: B, address + chunkSize * n ≤ c := by
    intro c hc
    have hlt := hcross (address + chunkSize * (n - 1))
      (List.mem_append_right _ (mem_run.mpr ⟨n - 1, by omega, rfl⟩)) c hc
    have hcal := h.aligned c (List.mem_append_right _ hc)
    simp only [chunkSize] at hal hlast hlt hcal ⊢
    omega
  have hgap : ∀ c ∈ A ++ t :: B, address ≤ c → address + chunkSize * n ≤ c := by
    intro c hc hle
    rcases List.mem_append.mp hc with hc | hc
    · have := hbelow c hc
      omega
    · exact habove c hc
  have hlen : (A ++ run address 0 n ++ t :: B).length = (A ++ t :: B).length + n := by
    simp only [List.length_append, length_run]
    omega
  have hlist : (A ++ t :: B).length < fuel := by omega
  have hblock : n ≤ fuel := by omega
  obtain ⟨k', hk', hlist, hcount⟩ := hk.free hn hal hpos hword hgap hlist hblock
  have htake : (A ++ t :: B).takeWhile (· < address) = A := by
    rw [List.takeWhile_append_of_pos (by simpa using hbelow), List.takeWhile_cons_of_neg,
      List.append_nil]
    have := habove t List.mem_cons_self
    simp
    omega
  have hdrop : (A ++ t :: B).dropWhile (· < address) = t :: B := by
    rw [List.dropWhile_append_of_pos (by simpa using hbelow), List.dropWhile_cons_of_neg]
    have := habove t List.mem_cons_self
    simp
    omega
  refine ⟨k', hk', ?_, ?_⟩
  · rwa [Kmem.free, htake, hdrop, Nat.max_eq_left (Nat.le_mul_of_pos_right _ hn), chunks_eq_run,
      Nat.mul_div_cancel_left _ (by decide : 0 < chunkSize)] at hlist
  · rw [hcount, hk.count, h.count, hlen]

theorem FreeList.restores (h : m.FreeList L) (hsize : PowerSize (max size chunkSize))
    (hal : ∀ a, aligned a = true → max size chunkSize ∣ a) :
    Restores m L size (m.allocWhere aligned (max size chunkSize)) := by
  obtain ⟨hn, hmul, -⟩ := hsize.count
  intro fuel hfuel
  rcases h.allocWhere aligned hsize hfuel with
    ⟨-, hloop⟩ | ⟨a, A, t, B, m', rfl, ha, -, hloop, hfree, hzero⟩
  · exact ⟨0, m, hloop, fun h0 => absurd rfl h0⟩
  · refine ⟨a, m', hloop, fun _ => ⟨hal a ha, ⟨A, t :: B, rfl⟩, hzero, ?_⟩⟩
    obtain ⟨k', hk', hlist, hcount⟩ := h.restore hfree hn hfuel
    rw [hmul, free_max] at hk'
    exact ⟨k', hk', hlist, hcount⟩

/-- Freeing undoes allocating, for sizes up to one chunk and powers of two of chunks. -/
theorem allocators_restore (h : m.FreeList L) (hsize : size ≤ chunkSize ∨ PowerSize size) :
    Restores m L size (m.alloc · size) ∧
      ∀ alignment mask, Restores m L size (m.allocAligned · size alignment mask) := by
  have hmax := powerSize_max hsize
  refine ⟨h.restores hmax fun a => hmax.aligned_iff.mp, fun alignment mask =>
    h.restores hmax fun a ha => hmax.aligned_iff.mp ?_⟩
  exact (Bool.and_eq_true_iff.mp ha).2

/-- The first of the two chunks is allocated and freed. -/
theorem restores_twoChunks :
    (twoChunks.alloc 3 chunkSize).map Prod.fst = some 1024 ∧
      Restores twoChunks [1024, 2048] chunkSize (twoChunks.alloc · chunkSize) :=
  ⟨rfl, (allocators_restore freeList_twoChunks (.inl (Nat.le_refl _))).1⟩

end KmemMemory

end L4Thread
