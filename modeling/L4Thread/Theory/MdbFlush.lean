import L4Thread.Lib.Forest
import L4Thread.Theory.MdbChain

/-!
# Revoking along a chain

`mdb_flush` goes along a chain of nodes up to the first that is not deeper than the node it starts
at. It reads the reference bits of the entries, takes the rights away from them, and removes the
nodes where these are all rights.
-/

namespace L4Thread

namespace FlushRequest

variable (r : FlushRequest) {s s' t : FlushState} {w : FlushWalk} {pg : Word → Word}
  {root y : Word} {A B C R : List Word} {bits u v : BitVec 3}

/-- The entry of a mapping after its rights are revoked. -/
def takeRights (e : Pgent) : Pgent :=
  if r.fp.isRwx then e.cleared (hwPgsize r.fPgsize) else e.revokeRights r.fp.getRwx

/-- The nodes that go with their mappings. -/
def freed (R : List Word) : List Word := if r.fp.isRwx then R else []

/-- The nodes that are left where their mappings are revoked. -/
def left (R : List Word) : List Word := if r.fp.isRwx then [] else R

/-- The mappings of the nodes `R`, which stand between others below a root node, are revoked. The
reference bits of their entries are kept in the nodes and are part of the result. -/
structure Revokes (root : Word) (pg : Word → Word) (A R C : List Word) (bits : BitVec 3)
    (s : FlushState) (v : BitVec 3) (s' : FlushState) : Prop where
  holds : s'.mdb.Holds pg root (A ++ (r.left R ++ C))
  entry : ∀ a, s'.entry a = if a ∈ R.map pg then r.takeRights (s.entry a) else s.entry a
  link : ∀ a, s'.link a = if r.fp.isRwx = true ∧ a ∈ R.map pg then 0 else s.link a
  rwx : ∀ p, s'.rwx p = if p ∈ R then s.rwx p ||| (s.entry (pg p)).referenceBits else s.rwx p
  mdb : Mdb.Detached root (A ++ (R ++ C)) (r.freed R) s.mdb s'.mdb
  bits : ∀ i, v.getLsbD i = true ↔ bits.getLsbD i = true ∨
    ∃ p ∈ R, (s.entry (pg p)).referenceBits.getLsbD i = true

variable {r}

theorem freed_cons : r.freed (y :: R) = r.freed [y] ++ r.freed R := by
  rw [freed, freed, freed]
  split <;> rfl

theorem left_cons : r.left (y :: R) = r.left [y] ++ r.left R := by
  rw [left, left, left]
  split <;> rfl

theorem mem_freed {p : Word} : p ∈ r.freed R ↔ r.fp.isRwx = true ∧ p ∈ R := by
  rw [freed]
  cases r.fp.isRwx <;> simp

theorem left_subset : r.left R ⊆ R := by
  rw [left]
  split
  · exact List.nil_subset R
  · exact List.Subset.refl R

theorem filter_freed (hnodup : (A ++ (R ++ C)).Nodup) :
    (A ++ (R ++ C)).filter (fun p => p ∉ r.freed R) = A ++ (r.left R ++ C) := by
  rw [freed, left]
  cases r.fp.isRwx with
  | true => exact Forest.filter_middle hnodup
  | false => exact List.filter_eq_self.2 fun p _ => decide_eq_true List.not_mem_nil

theorem Revokes.refl (h : s.mdb.Holds pg root (A ++ C)) :
    r.Revokes root pg A [] C bits s bits s := by
  have hleft : r.left [] = [] := ite_self _
  have hfreed : r.freed [] = [] := ite_self _
  refine ⟨by rwa [hleft], fun a => ?_, fun a => ?_, fun p => ?_, ?_, fun i => ?_⟩
  · rw [List.map_nil, if_neg List.not_mem_nil]
  · rw [List.map_nil, if_neg fun h => List.not_mem_nil h.2]
  · rw [if_neg List.not_mem_nil]
  · rw [hfreed]
    exact .refl
  · simp

theorem Revokes.cons (h : r.Revokes root pg A [y] (R ++ C) bits s v s')
    (h' : r.Revokes root pg (A ++ r.left [y]) R C v s' u t) (hpage : pg y ∉ R.map pg) :
    r.Revokes root pg A (y :: R) C bits s u t := by
  have hy : y ∉ R := fun hy => hpage (List.mem_map_of_mem hy)
  have hne : ∀ p ∈ R, p ∉ [y] := by
    intro p hp hpy
    exact hy (List.mem_singleton.1 hpy ▸ hp)
  have hpages : ∀ p ∈ R, s'.entry (pg p) = s.entry (pg p) := by
    intro p hp
    rw [h.entry, if_neg]
    rw [List.map_singleton, List.mem_singleton]
    exact fun heq => hpage (heq ▸ List.mem_map_of_mem hp)
  refine ⟨?_, fun a => ?_, fun a => ?_, fun p => ?_, ?_, fun i => ?_⟩
  · rw [left_cons, List.append_assoc, ← List.append_assoc A]
    exact h'.holds
  · rw [h'.entry, h.entry, List.map_cons, List.map_nil]
    by_cases ha : a = pg y
    · subst ha
      simp [hpage]
    · simp [ha]
  · rw [h'.link, h.link, List.map_cons, List.map_nil]
    by_cases ha : a = pg y
    · subst ha
      simp [hpage]
    · simp [ha]
  · rw [h'.rwx, h.rwx]
    by_cases hp : p ∈ R
    · rw [if_pos hp, if_neg (hne p hp), if_pos (List.mem_cons_of_mem _ hp), hpages p hp]
    · simp [hp]
  · rw [freed_cons]
    refine h.mdb.trans h'.mdb fun p hp => ?_
    rw [List.append_assoc] at hp
    rcases List.mem_append.1 hp with hp | hp
    · exact List.mem_append_left _ hp
    · refine List.mem_append_right _ ?_
      rcases List.mem_append.1 hp with hp | hp
      · exact List.mem_append_left _ (left_subset hp)
      · exact List.mem_append_right _ hp
  · have hrest : (∃ p ∈ R, (s'.entry (pg p)).referenceBits.getLsbD i = true) ↔
        ∃ p ∈ R, (s.entry (pg p)).referenceBits.getLsbD i = true :=
      exists_congr fun p => and_congr_right fun hp => by rw [hpages p hp]
    rw [h'.bits, h.bits, hrest, or_assoc, List.exists_mem_cons_iff _ y R]
    simp only [List.mem_singleton, exists_eq_left]

/-! ### One node -/

/-- The walk has come to a node. -/
structure At (r : FlushRequest) (w : FlushWalk) (y pg : Word) : Prop where
  fMap : w.fMap = y
  fPg : w.fPg = pg
  fPgsize : w.fPgsize = r.fPgsize
  root : w.root = 0
  rcnt : w.rcnt = 0

theorem exists_revoke (hat : r.At w y (pg y)) (hself : w.unmapSelf = true)
    (h : s.mdb.Holds pg root (A ++ y :: C)) (hroot : root ≠ 0) : ∃ prev w' s',
      r.revoke w s = some (prev, w', s') ∧ r.At w' y (pg y) ∧
      r.Revokes root pg A [y] C w.rwx s w'.rwx s' ∧
      ∀ n ∈ C.head?, s'.mdb.getPgent n prev.ptr = pg n := by
  have hrwx : ∀ p, Function.update s.rwx y (s.rwx y ||| (s.entry (pg y)).referenceBits) p =
      if p ∈ [y] then s.rwx p ||| (s.entry (pg p)).referenceBits else s.rwx p := by
    intro p
    by_cases hp : p = y
    · subst hp
      simp
    · simp [hp]
  have hentry : ∀ a, Function.update s.entry (pg y) (r.takeRights (s.entry (pg y))) a =
      if a ∈ [y].map pg then r.takeRights (s.entry a) else s.entry a := by
    intro a
    by_cases ha : a = pg y
    · subst ha
      simp
    · simp [ha]
  have hbits : ∀ i, (w.rwx ||| (s.entry (pg y)).referenceBits).getLsbD i = true ↔
      w.rwx.getLsbD i = true ∨ ∃ p ∈ [y], (s.entry (pg p)).referenceBits.getLsbD i = true := by
    intro i
    simp only [BitVec.getLsbD_or, Bool.or_eq_true, List.mem_singleton, exists_eq_left]
  rw [revoke, hat.fMap, hat.fPg, hat.fPgsize]
  simp only [hself, ↓reduceIte]
  cases hrights : r.fp.isRwx with
  | true =>
    obtain ⟨m', hm', hholds, hdetached, hnext⟩ := h.remove hroot
    rw [hm']
    refine ⟨_, _, _, rfl, ⟨rfl, rfl, rfl, hat.root, hat.rcnt⟩,
      ⟨?_, fun a => ?_, fun a => ?_, hrwx, ?_, hbits⟩, hnext⟩
    · rw [left, if_pos hrights]
      exact hholds
    · rw [← hentry, takeRights, if_pos hrights]
    · simp [hrights, Function.update_apply]
    · rw [freed, if_pos hrights]
      exact hdetached
  | false =>
    have hsome := ne_true_of_eq_false hrights
    refine ⟨_, _, _, rfl, ⟨rfl, rfl, rfl, hat.root, hat.rcnt⟩,
      ⟨?_, fun a => ?_, fun a => ?_, hrwx, ?_, hbits⟩, fun n hn => h.getPgent_next hn⟩
    · rw [left, if_neg hsome]
      exact h
    · rw [← hentry, takeRights, if_neg hsome]
    · rw [if_neg fun h => hsome h.1]
    · rw [freed, if_neg hsome]
      exact .refl

theorem proceed_flat {prev : MdbPlace} {n : Word} (hroot : w.root = 0) :
    r.proceed prev 0 0 n w s = some ({ w with
      fMap := n, fPg := if n = 0 then w.fPg else s.mdb.getPgent n prev.ptr }, s) := by
  rw [proceed, if_neg (not_not.2 rfl)]
  by_cases hn : n = 0
  · rw [if_neg (not_not.2 hn), if_neg (fun h => h.2 hroot), if_pos hn, hn]
  · rw [if_pos hn, if_neg hn]

theorem scan_flat {fuel : Nat} (hrcnt : w.rcnt = 0) : r.scan (fuel + 1) w s = some (w, s) := by
  rw [scan, if_neg]
  rintro ⟨-, hpos⟩
  exact Nat.ne_of_gt hpos hrcnt

/-- The walk where no node has an array of roots. -/
theorem flushLoop_flat (startdepth : BitVec 8) {prev : MdbPlace} {n : Word} {w' : FlushWalk}
    (hnext : (s.mdb.node w.fMap).next = .map n)
    (hrevoke : r.revoke w s = some (prev, w', s')) (hroot : w'.root = 0) (hrcnt : w'.rcnt = 0)
    (hsize : w'.fPgsize ≤ r.tPgsize) :
    ∀ fuel, r.flushLoop startdepth (fuel + 1) w s =
      if n ≠ 0 ∧ startdepth < (s'.mdb.node n).depth then
        r.flushLoop startdepth fuel { w' with
          fMap := n, fPg := if n = 0 then w'.fPg else s'.mdb.getPgent n prev.ptr
          unmapSelf := true } s'
      else some (w'.rwx, s') := by
  intro fuel
  rw [flushLoop, hnext, Mdb.getRoot_map, Mdb.getMap_map, hrevoke]
  have hdual : (NextLink.map n).getDual = 0 := rfl
  simp only [hdual, Option.bind_eq_bind, Option.bind_some, proceed_flat hroot]
  rw [scan_flat]
  · simp only [Option.bind_some, hsize, ↓reduceIte]
  · exact hrcnt

/-! ### The walk -/

/-- The nodes up to the first that is not deeper are revoked. -/
theorem exists_flushLoop (startdepth : BitVec 8) (deeper : Word → Bool)
    (hsize : r.fPgsize ≤ r.tPgsize) (hroot : root ≠ 0) (B : List Word) :
    ∀ {A : List Word} {y : Word} {w : FlushWalk} {s : FlushState},
      r.At w y (pg y) → w.unmapSelf = true → s.mdb.Holds pg root (A ++ y :: B) →
      (∀ p, deeper p = true ↔ startdepth < (s.mdb.node p).depth) →
      ∃ v s', (∀ fuel, B.length ≤ fuel → r.flushLoop startdepth (fuel + 1) w s = some (v, s')) ∧
        r.Revokes root pg A (y :: B.takeWhile deeper) (B.dropWhile deeper) w.rwx s v s' := by
  induction B with
  | nil =>
    intro A y w s hat hself h hdeeper
    obtain ⟨prev, w', s', hrevoke, hat', hrevokes, -⟩ := exists_revoke hat hself h hroot
    have hnext := h.next_eq
    rw [← hat.fMap] at hnext
    have hloop := flushLoop_flat startdepth hnext hrevoke hat'.root hat'.rcnt
      (hat'.fPgsize.trans_le hsize)
    refine ⟨_, s', fun fuel _ => (hloop fuel).trans (if_neg fun hne => hne.1 rfl), hrevokes⟩
  | cons n B ih =>
    intro A y w s hat hself h hdeeper
    obtain ⟨prev, w', s', hrevoke, hat', hrevokes, hpgent⟩ := exists_revoke hat hself h hroot
    have hne : n ≠ 0 := h.linked.ne_zero (by simp)
    have hnext := h.next_eq
    rw [← hat.fMap] at hnext
    have hloop := flushLoop_flat startdepth hnext hrevoke hat'.root hat'.rcnt
      (hat'.fPgsize.trans_le hsize)
    rw [List.headD_cons, hrevokes.mdb.depth, hpgent n rfl, if_neg hne] at hloop
    by_cases hdeep : deeper n = true
    · have hholds := hrevokes.holds
      rw [← List.append_assoc] at hholds
      have hdeeper' : ∀ p, deeper p = true ↔ startdepth < (s'.mdb.node p).depth := fun p => by
        rw [hdeeper, hrevokes.mdb.depth]
      have hat'' : r.At { w' with fMap := n, fPg := pg n, unmapSelf := true } n (pg n) :=
        ⟨rfl, rfl, hat'.fPgsize, hat'.root, hat'.rcnt⟩
      obtain ⟨v, t, hrun, hrest⟩ := ih hat'' rfl hholds hdeeper'
      have hsub : n :: B.takeWhile deeper ⊆ n :: B :=
        List.cons_subset_cons n (List.takeWhile_subset deeper)
      rw [List.takeWhile_cons_of_pos hdeep, List.dropWhile_cons_of_pos hdeep]
      refine ⟨v, t, fun fuel hfuel => ?_, Revokes.cons ?_ hrest fun hy =>
        h.page_notMem (List.map_subset pg hsub hy)⟩
      · obtain ⟨fuel, rfl⟩ := Nat.exists_eq_add_of_le' hfuel
        exact (hloop _).trans ((if_pos ⟨hne, (hdeeper n).1 hdeep⟩).trans
          (hrun _ (Nat.le_add_left _ _)))
      · rwa [List.cons_append, List.takeWhile_append_dropWhile]
    · rw [List.takeWhile_cons_of_neg hdeep, List.dropWhile_cons_of_neg hdeep]
      exact ⟨_, s', fun fuel _ => (hloop fuel).trans (if_neg fun h => hdeep ((hdeeper n).2 h.2)),
        hrevokes⟩

variable (r) in
/-- The nodes whose mappings are revoked, out of a node and those below it. -/
def range (below : List Word) : List Word := if r.unmapSelf then r.fMap :: below else below

variable (r) in
/-- The reference bits that the node itself has collected are read first. -/
def start (s : FlushState) : FlushState :=
  if r.unmapSelf then { s with rwx := Function.update s.rwx r.fMap 0 } else s

variable (r) in
/-- The reference bits that the node itself has collected. -/
def collected (s : FlushState) : BitVec 3 := if r.unmapSelf then s.rwx r.fMap else 0

theorem start_mdb : (r.start s).mdb = s.mdb := by
  rw [start]
  split <;> rfl

theorem start_entry : (r.start s).entry = s.entry := by
  rw [start]
  split <;> rfl

theorem start_link : (r.start s).link = s.link := by
  rw [start]
  split <;> rfl

/-- The nodes that are deeper than the node of the request. -/
def deeper (r : FlushRequest) (m : Mdb) (p : Word) : Bool :=
  (m.node r.fMap).depth.toNat < (m.node p).depth.toNat

theorem deeper_iff {m : Mdb} {p : Word} :
    r.deeper m p = true ↔ (m.node r.fMap).depth < (m.node p).depth :=
  decide_eq_true_iff.trans BitVec.lt_def.symm

theorem exists_mdbFlush_self (h : s.mdb.Holds pg root (A ++ r.fMap :: B))
    (hself : r.unmapSelf = true) (hPg : r.fPg = pg r.fMap) (hsize : r.fPgsize ≤ r.tPgsize)
    (hroot : root ≠ 0) : ∃ v s',
      (∀ fuel, B.length ≤ fuel → r.mdbFlush (fuel + 1) s = some (v, s')) ∧
      r.Revokes root pg A (r.fMap :: B.takeWhile (r.deeper s.mdb)) (B.dropWhile (r.deeper s.mdb))
        (s.rwx r.fMap) (r.start s) v s' := by
  have hstart : r.start s = { s with rwx := Function.update s.rwx r.fMap 0 } := if_pos hself
  have hflush : ∀ fuel, r.mdbFlush fuel s = r.flushLoop (s.mdb.node r.fMap).depth fuel
      (r.walk (s.rwx r.fMap ||| (s.entry r.fPg).referenceBits)) (r.start s) := by
    rw [hstart]
    exact fun _ => if_pos hself
  have hat : r.At (r.walk (s.rwx r.fMap ||| (s.entry r.fPg).referenceBits)) r.fMap (pg r.fMap) :=
    ⟨rfl, hPg, rfl, rfl, rfl⟩
  have hdeeper : ∀ p, r.deeper s.mdb p = true ↔
      (s.mdb.node r.fMap).depth < ((r.start s).mdb.node p).depth := by
    rw [start_mdb]
    exact fun p => deeper_iff
  rw [← start_mdb (r := r)] at h
  obtain ⟨v, s', hrun, hrevokes⟩ := exists_flushLoop _ _ hsize hroot B hat hself h hdeeper
  refine ⟨v, s', fun fuel hfuel => (hflush _).trans (hrun fuel hfuel),
    { hrevokes with bits := fun i => ?_ }⟩
  rw [hrevokes.bits, start_entry, walk, BitVec.getLsbD_or, Bool.or_eq_true, hPg,
    List.exists_mem_cons_iff _ r.fMap, or_assoc, or_self_left]

theorem exists_mdbFlush_below (h : s.mdb.Holds pg root (A ++ r.fMap :: B))
    (hself : r.unmapSelf = false) (hsize : r.fPgsize ≤ r.tPgsize) (hroot : root ≠ 0) : ∃ v s',
      (∀ fuel, B.length ≤ fuel → r.mdbFlush (fuel + 1) s = some (v, s')) ∧
      r.Revokes root pg (A ++ [r.fMap]) (B.takeWhile (r.deeper s.mdb))
        (B.dropWhile (r.deeper s.mdb)) 0 s v s' := by
  have hflush : ∀ fuel, r.mdbFlush fuel s =
      r.flushLoop (s.mdb.node r.fMap).depth fuel (r.walk 0) s :=
    fun _ => if_neg (ne_true_of_eq_false hself)
  have hrevoke : r.revoke (r.walk 0) s = some (.node r.fMap, r.walk 0, s) :=
    if_neg (ne_true_of_eq_false hself)
  have hloop := flushLoop_flat (s.mdb.node r.fMap).depth (w := r.walk 0) h.next_eq
    hrevoke rfl rfl hsize
  by_cases hdeep : ∃ n B', B = n :: B' ∧ r.deeper s.mdb n = true
  · obtain ⟨n, B, rfl, hdeep⟩ := hdeep
    have hne : n ≠ 0 := h.linked.ne_zero (by simp)
    have hpgent : s.mdb.getPgent n (MdbPlace.node r.fMap).ptr = pg n := h.getPgent_next rfl
    rw [List.headD_cons, hpgent, if_neg hne] at hloop
    rw [List.append_cons] at h
    have hat : r.At { r.walk 0 with fMap := n, fPg := pg n, unmapSelf := true } n (pg n) :=
      ⟨rfl, rfl, rfl, rfl, rfl⟩
    obtain ⟨v, s', hrun, hrevokes⟩ :=
      exists_flushLoop _ (r.deeper s.mdb) hsize hroot B hat rfl h fun p => deeper_iff
    rw [List.takeWhile_cons_of_pos hdeep, List.dropWhile_cons_of_pos hdeep]
    refine ⟨v, s', fun fuel hfuel => ?_, hrevokes⟩
    obtain ⟨fuel, rfl⟩ := Nat.exists_eq_add_of_le' hfuel
    exact (hflush _).trans ((hloop _).trans ((if_pos ⟨hne, deeper_iff.1 hdeep⟩).trans
      (hrun _ (Nat.le_add_left _ _))))
  · -- the first node behind it is not deeper, or there is none
    have htake : B.takeWhile (r.deeper s.mdb) = [] := by
      cases B with
      | nil => rfl
      | cons n B => exact List.takeWhile_cons_of_neg fun h => hdeep ⟨n, B, rfl, h⟩
    have hdrop := List.takeWhile_append_dropWhile (p := r.deeper s.mdb) (l := B)
    rw [htake, List.nil_append] at hdrop
    rw [htake, hdrop]
    rw [List.append_cons] at h
    refine ⟨0, s, fun fuel _ => (hflush _).trans ((hloop fuel).trans (if_neg ?_)), .refl h⟩
    rintro ⟨hne, hdepth⟩
    cases B with
    | nil => exact hne rfl
    | cons n B => exact hdeep ⟨n, B, rfl, deeper_iff.2 hdepth⟩

/-- `mdb_flush` where no node has an array of roots. -/
theorem exists_mdbFlush (h : s.mdb.Holds pg root (A ++ r.fMap :: B)) (hPg : r.fPg = pg r.fMap)
    (hsize : r.fPgsize ≤ r.tPgsize) (hroot : root ≠ 0) :
    let R := r.range (Forest.below (fun p => (s.mdb.node p).depth.toNat) r.fMap B)
    ∃ v s' A' C, (∀ fuel, B.length ≤ fuel → r.mdbFlush (fuel + 1) s = some (v, s')) ∧
      A ++ r.fMap :: B = A' ++ (R ++ C) ∧
      r.Revokes root pg A' R C (r.collected s) (r.start s) v s' := by
  have hsplit := List.takeWhile_append_dropWhile (p := r.deeper s.mdb) (l := B)
  cases hself : r.unmapSelf with
  | true =>
    obtain ⟨v, s', hrun, hrevokes⟩ := exists_mdbFlush_self h hself hPg hsize hroot
    rw [range, collected, if_pos hself, if_pos hself]
    exact ⟨v, s', A, _, hrun, congrArg (A ++ r.fMap :: ·) hsplit.symm, hrevokes⟩
  | false =>
    obtain ⟨v, s', hrun, hrevokes⟩ := exists_mdbFlush_below h hself hsize hroot
    have hoff := ne_true_of_eq_false hself
    rw [range, collected, start, if_neg hoff, if_neg hoff, if_neg hoff, List.append_cons]
    exact ⟨v, s', _, _, hrun, congrArg (A ++ [r.fMap] ++ ·) hsplit.symm, hrevokes⟩

end FlushRequest

end L4Thread
