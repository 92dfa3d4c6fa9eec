import L4Thread.Kernel.Asid
import L4Thread.Lib.Run
import L4Thread.Lib.Stack
import Mathlib.Data.Fintype.Card

/-!
# Invariant of the ASID cache

`Represents s L F`: the ASIDs in use are the ring `L` of the LRU links, from the head on, and the
others are the free list `F`. The removal of `move_asid` compares the two neighbours of the removed
entry, so that it takes a ring of two entries for one of a single entry.
-/

namespace L4Thread

open Ring

variable {N : Nat} {α : Type}

namespace AsidCache

variable {c d : AsidCache N α} {L F : List (Fin N)} {i j x : Fin N}

/-- The LRU links. -/
def links (c : AsidCache N α) (i : Fin N) : Link (Fin N) := (c.asids i).toLink

@[simp] theorem links_setNext (v : Option (Fin N)) :
    (c.setNext i v).links = Ring.setNext c.links i v := by
  funext j
  rcases eq_or_ne j i with rfl | h
  · simp [links, setNext, Ring.setNext]
  · simp [links, setNext, Ring.setNext, h]

@[simp] theorem links_setPrev (v : Option (Fin N)) :
    (c.setPrev i v).links = Ring.setPrev c.links i v := by
  funext j
  rcases eq_or_ne j i with rfl | h
  · simp [links, setPrev, Ring.setPrev]
  · simp [links, setPrev, Ring.setPrev, h]

@[simp] theorem links_setAsid (v : AsidSlot α) : (c.setAsid i v).links = c.links := by
  funext j
  rcases eq_or_ne j i with rfl | h
  · simp [links, setAsid]
  · simp [links, setAsid, h]

/-- The holders of the ASIDs. -/
def slots (c : AsidCache N α) (i : Fin N) : AsidSlot α := (c.asids i).asid

@[simp] theorem slots_setNext (v : Option (Fin N)) : (c.setNext i v).slots = c.slots := by
  funext j
  rcases eq_or_ne j i with rfl | h
  · simp [slots, setNext]
  · simp [slots, setNext, h]

@[simp] theorem slots_setPrev (v : Option (Fin N)) : (c.setPrev i v).slots = c.slots := by
  funext j
  rcases eq_or_ne j i with rfl | h
  · simp [slots, setPrev]
  · simp [slots, setPrev, h]

@[simp] theorem slots_setAsid (v : AsidSlot α) :
    (c.setAsid i v).slots = Function.update c.slots i v := by
  funext j
  rcases eq_or_ne j i with rfl | h
  · simp [slots, setAsid]
  · simp [slots, setAsid, h]

/-- What `move_asid` does: a new ring, and nothing to the entries outside of the rings, the holders
and the free list. -/
structure Moved (c d : AsidCache N α) (L M : List (Fin N)) : Prop where
  ring : IsRing d.links d.lruHead M
  links : ∀ y ∉ L, d.links y = c.links y
  slots : d.slots = c.slots
  firstFree : d.firstFree = c.firstFree

/-- The removal of an entry from a ring that does not have exactly two. -/
theorem exists_remove (h : IsRing c.links c.lruHead L) (hx : x ∈ L) (hL : L.length ≠ 2) :
    ∃ d, c.remove x = some d ∧ Moved c d L (L.erase x) := by
  by_cases hself : (c.links x).next = some x
  · -- the entry is alone
    obtain rfl := (h.cyc.next_eq_self_iff hx).mp hself
    have hlink := Cyc.singleton_iff.mp h.cyc
    have hnext : (c.asids x).next = some x := congrArg Link.next hlink
    have hprev : (c.asids x).prev = some x := congrArg Link.prev hlink
    have hhead : c.lruHead = some x := h.head_eq
    refine ⟨{ c with lruHead := none }, ?_, ⟨?_, fun _ _ => rfl, rfl, rfl⟩⟩
    · simp [remove, hnext, hprev, hhead]
    · rw [List.erase_cons_head]
      exact ⟨rfl, Cyc.nil⟩
  · have hlen : 2 < L.length := by
      rcases L with _ | ⟨y, _ | ⟨z, T⟩⟩
      · cases hx
      · obtain rfl := List.mem_singleton.mp hx
        rw [Cyc.singleton_iff.mp h.cyc] at hself
        exact absurd rfl hself
      · simp only [List.length_cons, ne_eq] at hL ⊢
        omega
    have hne := h.cyc.next_ne_prev hx hlen
    obtain ⟨n, hn, hnext⟩ := h.cyc.next_mem hx
    obtain ⟨p, hp, hprev⟩ := h.cyc.prev_mem hx
    obtain ⟨head', l', hdeq, hring, hframe⟩ := h.dequeue hx
    rw [dequeue, if_neg hself] at hdeq
    have hnx : ¬n = x := by
      rintro rfl
      exact hself hnext
    simp only [hnext, hprev, setPrev_prev, setPrev_next, if_neg (Ne.symm hnx)] at hdeq
    cases hdeq
    have hnext' : (c.asids x).next = some n := hnext
    have hprev' : (c.asids x).prev = some p := hprev
    have hlinks : ((c.setNext p (some n)).setPrev n (some p)).links =
        Ring.setNext (Ring.setPrev c.links n (some p)) p (some n) := by
      rw [links_setPrev, links_setNext, setNext_setPrev_comm]
    rw [hnext, hprev] at hne
    refine ⟨{ (c.setNext p (some n)).setPrev n (some p) with
      lruHead := if c.lruHead = some x then some n else c.lruHead }, ?_, ⟨?_, ?_, ?_, rfl⟩⟩
    · simp only [remove, hnext', hprev', if_pos hne.symm]
      split <;> rfl
    · exact hlinks ▸ hring
    · exact fun y hy => (congrFun hlinks y).trans (hframe y hy)
    · show ((c.setNext p (some n)).setPrev n (some p)).slots = c.slots
      rw [slots_setPrev, slots_setNext]

/-- The insertion of an entry in front of the ring. -/
theorem exists_insert (h : IsRing c.links c.lruHead L) (hx : x ∉ L) :
    ∃ d, c.insert x = some d ∧ Moved c d (x :: L) (x :: L) := by
  obtain ⟨head', l', henq, hring, hframe⟩ := h.enqueueHead hx
  cases hhead : c.lruHead with
  | none =>
    rw [hhead, enqueueHead] at henq
    cases henq
    have hlinks : ((((c.setPrev x (some x)).setNext x (some x)).setPrev x (some x)).setNext x
        (some x)).links = Function.update c.links x ⟨some x, some x⟩ := by
      simp only [links_setNext, links_setPrev]
      funext y
      rcases eq_or_ne y x with rfl | hy
      · simp [Ring.setNext, Ring.setPrev]
      · simp [Ring.setNext, Ring.setPrev, hy]
    refine ⟨{ (((c.setPrev x (some x)).setNext x (some x)).setPrev x (some x)).setNext x (some x)
      with lruHead := some x }, by simp only [insert, hhead], ⟨hlinks ▸ hring, ?_, ?_, rfl⟩⟩
    · exact fun y hy => (congrFun hlinks y).trans (hframe y hy)
    · show ((((c.setPrev x (some x)).setNext x (some x)).setPrev x (some x)).setNext x
        (some x)).slots = c.slots
      simp only [slots_setNext, slots_setPrev]
  | some a =>
    have haL : a ∈ L := by
      have hL := h.head_eq
      rw [hhead] at hL
      exact List.mem_of_mem_head? hL.symm
    obtain ⟨p, hp, hprev⟩ := h.cyc.prev_mem haL
    have hprev' : (c.asids a).prev = some p := hprev
    have hax : a ≠ x := fun e => hx (e ▸ haL)
    have hpx : p ≠ x := fun e => hx (e ▸ hp)
    rw [hhead, enqueueHead, insertBefore_eq hprev hax hpx] at henq
    cases henq
    have hlinks : ((((c.setPrev a (some x)).setNext p (some x)).setPrev x (some p)).setNext x
        (some a)).links = Ring.setNext (Ring.setPrev (Ring.setNext (Ring.setPrev c.links a
          (some x)) p (some x)) x (some p)) x (some a) := by
      simp only [links_setNext, links_setPrev]
    refine ⟨{ (((c.setPrev a (some x)).setNext p (some x)).setPrev x (some p)).setNext x (some a)
      with lruHead := some x }, by simp only [insert, hhead, hprev'], ⟨hlinks ▸ hring, ?_, ?_, rfl⟩⟩
    · exact fun y hy => (congrFun hlinks y).trans (hframe y hy)
    · show ((((c.setPrev a (some x)).setNext p (some x)).setPrev x (some p)).setNext x
        (some a)).slots = c.slots
      simp only [slots_setNext, slots_setPrev]

/-! ## The loop of `set_valid` -/

theorem write_slots (prev v : Option (Fin N)) : (c.write prev v).slots = c.slots := by
  cases prev with
  | none => rfl
  | some i => exact slots_setNext v

theorem write_links {prev : Option (Fin N)} (h : prev ≠ some j) (v : Option (Fin N)) :
    (c.write prev v).links j = c.links j := by
  cases prev with
  | none => rfl
  | some i =>
    rw [write, links_setNext]
    exact setNext_of_ne (fun e => h (congrArg some e.symm)) v

theorem write_lruHead (prev v : Option (Fin N)) : (c.write prev v).lruHead = c.lruHead := by
  cases prev <;> rfl

theorem index?_eq_some {idx : Int} (h : 0 ≤ idx) (hN : idx < N) :
    ∃ i : Fin N, index? idx = some i :=
  ⟨_, dif_pos ⟨h, hN⟩⟩

/-- The loop has linked the entries `A`, which were invalid: whatever is written through `prev`
becomes the tail behind them. -/
structure Linking (c d : AsidCache N α) (prev : Option (Fin N)) (A : List (Fin N)) : Prop where
  seg (v : Option (Fin N)) :
    Stack.Seg (fun i => ((d.write prev v).links i).next) (d.write prev v).firstFree A v
  last : prev = A.getLast?
  nodup : A.Nodup
  invalid : ∀ j ∈ A, c.slots j = .invalid
  slots (j : Fin N) : d.slots j = if j ∈ A then .free else c.slots j
  links : ∀ j ∉ A, d.links j = c.links j
  lruHead : d.lruHead = c.lruHead

theorem Linking.refl (c : AsidCache N α) : Linking c c none [] where
  seg _ := rfl
  last := rfl
  nodup := List.nodup_nil
  invalid := nofun
  slots _ := rfl
  links _ _ := rfl
  lruHead := rfl

/-- One more entry. -/
theorem Linking.snoc {prev : Option (Fin N)} {A : List (Fin N)} (h : Linking c d prev A)
    (hi : d.slots i = .invalid) :
    Linking c ((d.write prev (some i)).setAsid i .free) (some i) (A ++ [i]) := by
  have hiA : i ∉ A := by
    intro hm
    rw [h.slots, if_pos hm] at hi
    cases hi
  have hprev : ∀ j ∉ A, prev ≠ some j := by
    rintro j hj rfl
    exact hj (List.mem_of_getLast? h.last.symm)
  refine ⟨fun v => ?_, List.getLast?_concat.symm, ?_, ?_, ?_, ?_, ?_⟩
  · refine Stack.Seg.append ((h.seg (some i)).congr fun j hj => ?_) ⟨rfl, ?_⟩
    · have hji : j ≠ i := fun e => hiA (e ▸ hj)
      rw [write, links_setNext, links_setAsid, setNext_of_ne hji]
    · show (((((d.write prev (some i)).setAsid i .free).setNext i v).links i).next) = v
      rw [links_setNext, setNext_next, if_pos rfl]
  · refine List.nodup_append.2 ⟨h.nodup, List.nodup_singleton i, ?_⟩
    rintro j hj k hk rfl
    exact hiA (List.mem_singleton.1 hk ▸ hj)
  · intro j hj
    rcases List.mem_append.1 hj with hj | hj
    · exact h.invalid j hj
    · obtain rfl := List.mem_singleton.1 hj
      rw [h.slots, if_neg hiA] at hi
      exact hi
  · intro j
    rw [slots_setAsid, write_slots]
    by_cases hj : j = i
    · subst hj
      rw [Function.update_self, if_pos (by simp)]
    · rw [Function.update_of_ne hj, h.slots]
      simp [hj]
  · intro j hj
    simp only [List.mem_append, List.mem_singleton, not_or] at hj
    rw [links_setAsid, write_links (hprev j hj.1), h.links j hj.1]
  · exact (write_lruHead _ _).trans h.lruHead

/-- The loop over indices inside of the array. -/
theorem exists_setValidLoop {prev : Option (Fin N)} {A : List (Fin N)} (h : Linking c d prev A)
    (idx : Int) (n : Nat) (hidx : 0 ≤ idx) (hn : idx + n ≤ N) :
    ∃ e prev' B, d.setValidLoop prev idx n = some (e, prev') ∧ Linking c e prev' B := by
  induction n generalizing d prev A idx with
  | zero => exact ⟨d, prev, A, rfl, h⟩
  | succ n ih =>
    obtain ⟨i, hi⟩ := index?_eq_some (N := N) hidx (by omega)
    rw [setValidLoop, hi]
    dsimp only
    split
    · rename_i hinv
      exact ih (h.snoc hinv) (idx + 1) (by omega) (by omega)
    · exact ih h (idx + 1) (by omega) (by omega)

/-- `set_valid` of a range inside of the array puts the invalid ASIDs of the range in front of the
free list. -/
theorem exists_setValid (start stop : Int) (hstart : 0 ≤ start) (hstop : stop < N) :
    ∃ d A prev, c.setValid start stop = some (d.write prev c.firstFree) ∧ Linking c d prev A := by
  by_cases hrange : start ≤ stop + 1
  · obtain ⟨d, prev, A, hd, hlink⟩ := exists_setValidLoop (Linking.refl c) start
      (stop + 1 - start).toNat hstart (by omega)
    refine ⟨d, A, prev, ?_, hlink⟩
    rw [setValid, hd]
    rfl
  · refine ⟨c, [], none, ?_, Linking.refl c⟩
    rw [setValid, Int.toNat_of_nonpos (by omega)]
    rfl

end AsidCache

namespace AsidState

variable {s t : AsidState N α} {L F : List (Fin N)} {i : Fin N} {a b : α}

/-- The ASIDs in use are the ring `L`, the other valid ones are the free list `F`, and every ASID in
use points at the object that holds it. -/
structure Represents (s : AsidState N α) (L F : List (Fin N)) : Prop where
  ring : IsRing s.cache.links s.cache.lruHead L
  free : Stack.IsStack (fun i => (s.cache.links i).next) s.cache.firstFree F
  freeNodup : F.Nodup
  mem_ring (i : Fin N) : i ∈ L ↔ ∃ a, s.cache.slots i = .holder a
  mem_free (i : Fin N) : i ∈ F ↔ s.cache.slots i = .free
  holder (a : α) (i : Fin N) : s.cache.slots i = .holder a ↔ s.asid a = some i

theorem Represents.mem_of_asid (h : s.Represents L F) (ha : s.asid a = some i) : i ∈ L :=
  (h.mem_ring i).2 ⟨a, (h.holder a i).2 ha⟩

theorem Represents.notMem_free (h : s.Represents L F) (hi : i ∈ L) : i ∉ F := by
  intro hF
  obtain ⟨b, hb⟩ := (h.mem_ring i).1 hi
  rw [(h.mem_free i).1 hF] at hb
  cases hb

/-- The initial state has no valid ASIDs. -/
theorem init_represents : (init : AsidState N α).Represents [] [] where
  ring := ⟨rfl, Cyc.nil⟩
  free := rfl
  freeNodup := List.nodup_nil
  mem_ring i := by simp [init, AsidCache.init, AsidCache.slots]
  mem_free i := by simp [init, AsidCache.init, AsidCache.slots]
  holder a i := by simp [init, AsidCache.init, AsidCache.slots]

/-- `set_valid` adds ASIDs to the free list only. -/
theorem exists_setValid (h : s.Represents L F) (start stop : Int) (hstart : 0 ≤ start)
    (hstop : stop < N) :
    ∃ t A, s.setValid start stop = some t ∧ t.Represents L (A ++ F) ∧ t.asid = s.asid := by
  obtain ⟨d, A, prev, hd, hlink⟩ :=
    AsidCache.exists_setValid (c := s.cache) start stop hstart hstop
  refine ⟨⟨d.write prev s.cache.firstFree, s.asid⟩, A, by rw [setValid, hd]; rfl, ?_, rfl⟩
  have hlinks : ∀ j ∉ A, (d.write prev s.cache.firstFree).links j = s.cache.links j := by
    intro j hj
    rw [AsidCache.write_links, hlink.links j hj]
    rintro rfl
    exact hj (List.mem_of_getLast? hlink.last.symm)
  have hslots : ∀ j, (d.write prev s.cache.firstFree).slots j =
      if j ∈ A then .free else s.cache.slots j := by
    intro j
    rw [AsidCache.write_slots, hlink.slots]
  have hring : ∀ j ∈ L, j ∉ A := by
    intro j hj hA
    obtain ⟨b, hb⟩ := (h.mem_ring j).1 hj
    rw [hlink.invalid j hA] at hb
    cases hb
  have hfree : ∀ j ∈ F, j ∉ A := by
    intro j hj hA
    have hslot := (h.mem_free j).1 hj
    rw [hlink.invalid j hA] at hslot
    cases hslot
  refine ⟨⟨?_, ?_⟩, ?_, ?_, ?_, ?_, ?_⟩
  · exact ((AsidCache.write_lruHead _ _).trans hlink.lruHead).trans h.ring.head_eq
  · exact h.ring.cyc.congr fun j hj => hlinks j (hring j hj)
  · refine (hlink.seg s.cache.firstFree).append (h.free.congr fun j hj => ?_)
    exact congrArg Link.next (hlinks j (hfree j hj))
  · refine List.nodup_append.2 ⟨hlink.nodup, h.freeNodup, ?_⟩
    rintro j hA k hF rfl
    exact hfree j hF hA
  · intro j
    show _ ↔ ∃ a, (d.write prev s.cache.firstFree).slots j = _
    rw [hslots]
    by_cases hA : j ∈ A
    · rw [if_pos hA]
      exact iff_of_false (fun hj => hring j hj hA) (by rintro ⟨_, ⟨⟩⟩)
    · rw [if_neg hA]
      exact h.mem_ring j
  · intro j
    show _ ↔ (d.write prev s.cache.firstFree).slots j = _
    rw [hslots, List.mem_append]
    by_cases hA : j ∈ A
    · rw [if_pos hA]
      exact iff_of_true (.inl hA) rfl
    · rw [if_neg hA, or_iff_right hA]
      exact h.mem_free j
  · intro a j
    show (d.write prev s.cache.firstFree).slots j = _ ↔ _
    rw [hslots]
    by_cases hA : j ∈ A
    · rw [if_pos hA]
      refine iff_of_false nofun fun ha => ?_
      exact hring j (h.mem_of_asid ha) hA
    · rw [if_neg hA]
      exact h.holder a j

/-- The state without the ASID `i`, which is in no list and held by no object. -/
structure Vacant (s : AsidState N α) (L F : List (Fin N)) (i : Fin N) : Prop where
  ring : IsRing s.cache.links s.cache.lruHead L
  free : Stack.IsStack (fun i => (s.cache.links i).next) s.cache.firstFree F
  freeNodup : F.Nodup
  notMem_ring : i ∉ L
  notMem_free : i ∉ F
  mem_ring {j : Fin N} : j ≠ i → (j ∈ L ↔ ∃ a, s.cache.slots j = .holder a)
  mem_free {j : Fin N} : j ≠ i → (j ∈ F ↔ s.cache.slots j = .free)
  holder {j : Fin N} (a : α) : j ≠ i → (s.cache.slots j = .holder a ↔ s.asid a = some j)
  notHeld (a : α) : s.asid a ≠ some i

theorem Vacant.notMem_of_free {j : Fin N} (h : s.Vacant L F i) (hj : j ∈ F) : j ∉ i :: L := by
  have hji : j ≠ i := fun e => h.notMem_free (e ▸ hj)
  rw [List.mem_cons, or_iff_right hji, h.mem_ring hji, (h.mem_free hji).1 hj]
  rintro ⟨b, hb⟩
  cases hb

variable [DecidableEq α]

/-- A `get` of an object with an ASID moves the ASID to the head of the ring. -/
theorem exists_get_held (h : s.Represents L F) (ha : s.asid a = some i) (hL : L.length ≠ 2) :
    ∃ t, s.get a = some t ∧ t.Represents (i :: L.erase i) F ∧ t.asid = s.asid := by
  have hi := h.mem_of_asid ha
  obtain ⟨d, hd, hmoved⟩ := AsidCache.exists_remove h.ring hi hL
  have hnot : i ∉ L.erase i := fun hm => (h.ring.cyc.nodup.mem_erase_iff.1 hm).1 rfl
  obtain ⟨e, he, hmoved'⟩ := AsidCache.exists_insert hmoved.ring hnot
  refine ⟨⟨e, s.asid⟩, ?_, ?_, rfl⟩
  · simp [get, ha, AsidCache.moveAsid, hd, he]
  · have hslots : e.slots = s.cache.slots := hmoved'.slots.trans hmoved.slots
    have hmem : ∀ j, j ∈ i :: L.erase i ↔ j ∈ L := by
      intro j
      rw [(List.perm_cons_erase hi).mem_iff]
    refine ⟨hmoved'.ring, ?_, h.freeNodup, ?_, ?_, ?_⟩
    · rw [hmoved'.firstFree, hmoved.firstFree]
      refine h.free.congr fun j hj => congrArg Link.next ?_
      have hjL : j ∉ L := fun hm => h.notMem_free hm hj
      rw [hmoved'.links j (fun hm => hjL ((hmem j).1 hm)), hmoved.links j hjL]
    · intro j
      rw [hmem, hslots]
      exact h.mem_ring j
    · exact fun j => hslots ▸ h.mem_free j
    · exact fun b j => hslots ▸ h.holder b j

/-- The insertion of an ASID that was taken for an object. -/
theorem Vacant.exists_insert (h : s.Vacant L F i) (ha : s.asid a = none) :
    ∃ d, s.cache.moveAsid i false true = some d ∧
      Represents ⟨d.setAsid i (.holder a), Function.update s.asid a (some i)⟩ (i :: L) F := by
  obtain ⟨d, hd, hmoved⟩ := AsidCache.exists_insert h.ring h.notMem_ring
  refine ⟨d, by simp [AsidCache.moveAsid, hd], ?_⟩
  have hself : (d.setAsid i (.holder a)).slots i = .holder a := by
    rw [AsidCache.slots_setAsid, Function.update_self]
  have hother : ∀ j ≠ i, (d.setAsid i (.holder a)).slots j = s.cache.slots j := by
    intro j hj
    rw [AsidCache.slots_setAsid, Function.update_of_ne hj, hmoved.slots]
  refine ⟨?_, ?_, h.freeNodup, ?_, ?_, ?_⟩
  · simp only [AsidCache.links_setAsid]
    exact hmoved.ring
  · simp only [AsidCache.links_setAsid]
    have hfree := h.free
    rw [← hmoved.firstFree] at hfree
    exact hfree.congr fun j hj => congrArg Link.next (hmoved.links j (h.notMem_of_free hj))
  · intro j
    by_cases hj : j = i
    · subst hj
      exact iff_of_true (List.mem_cons_self ..) ⟨a, hself⟩
    · rw [List.mem_cons, or_iff_right hj]
      show _ ↔ ∃ b, (d.setAsid i (.holder a)).slots j = _
      rw [hother j hj]
      exact h.mem_ring hj
  · intro j
    show _ ↔ (d.setAsid i (.holder a)).slots j = _
    by_cases hj : j = i
    · subst hj
      rw [hself]
      exact iff_of_false h.notMem_free nofun
    · rw [hother j hj]
      exact h.mem_free hj
  · intro b j
    show (d.setAsid i (.holder a)).slots j = _ ↔ Function.update s.asid a (some i) b = some j
    by_cases hj : j = i
    · subst hj
      rw [hself]
      by_cases hb : b = a
      · subst hb
        rw [Function.update_self]
        exact iff_of_true rfl rfl
      · rw [Function.update_of_ne hb]
        refine iff_of_false ?_ (h.notHeld b)
        rintro ⟨⟩
        exact hb rfl
    · rw [hother j hj, h.holder b hj]
      by_cases hb : b = a
      · subst hb
        rw [Function.update_self, ha]
        refine iff_of_false nofun ?_
        rintro ⟨⟩
        exact hj rfl
      · rw [Function.update_of_ne hb]

/-- A `get` of an object without an ASID takes a free one. -/
theorem exists_get_free (h : s.Represents L (i :: F)) (ha : s.asid a = none) :
    ∃ t, s.get a = some t ∧ t.Represents (i :: L) F ∧
      t.asid = Function.update s.asid a (some i) := by
  obtain ⟨hfirst, hrest⟩ := h.free
  have hiF := (List.nodup_cons.1 h.freeNodup).1
  have hi : s.cache.slots i = .free := (h.mem_free i).1 (List.mem_cons_self ..)
  have hvac : Vacant ⟨{ s.cache with firstFree := (s.cache.asids i).next }, s.asid⟩ L F i := by
    refine ⟨h.ring, hrest, (List.nodup_cons.1 h.freeNodup).2, ?_, hiF, ?_, ?_, ?_, ?_⟩
    · exact fun hm => h.notMem_free hm (List.mem_cons_self ..)
    · exact fun {j} _ => h.mem_ring j
    · intro j hj
      have hmem := h.mem_free j
      rwa [List.mem_cons, or_iff_right hj] at hmem
    · exact fun {j} b _ => h.holder b j
    · intro b hb
      rw [(h.holder b i).2 hb] at hi
      cases hi
  obtain ⟨d, hd, hrep⟩ := hvac.exists_insert ha
  refine ⟨_, ?_, hrep, rfl⟩
  simp only [get, ha, allocate, take, hfirst, Option.bind_eq_bind, Option.bind_some]
  rw [hd]
  rfl

/-- The removal of an ASID from the ring, and from its holder. -/
theorem Represents.vacant {d : AsidCache N α} (h : s.Represents L F) (hb : s.asid b = some i)
    (hmoved : s.cache.Moved d L (L.erase i)) :
    Vacant ⟨d, Function.update s.asid b none⟩ (L.erase i) F i := by
  have hi := h.mem_of_asid hb
  have herase : ∀ {j}, j ≠ i → (j ∈ L.erase i ↔ j ∈ L) := fun hj => List.mem_erase_of_ne hj
  refine ⟨hmoved.ring, ?_, h.freeNodup, ?_, h.notMem_free hi, ?_, ?_, ?_, ?_⟩
  · show Stack.IsStack _ d.firstFree F
    rw [hmoved.firstFree]
    refine h.free.congr fun j hj => congrArg Link.next (hmoved.links j ?_)
    exact fun hm => h.notMem_free hm hj
  · exact fun hm => (h.ring.cyc.nodup.mem_erase_iff.1 hm).1 rfl
  · intro j hj
    rw [herase hj]
    show _ ↔ ∃ a, d.slots j = _
    rw [hmoved.slots]
    exact h.mem_ring j
  · intro j _
    show _ ↔ d.slots j = _
    rw [hmoved.slots]
    exact h.mem_free j
  · intro j a hj
    show d.slots j = _ ↔ Function.update s.asid b none a = some j
    rw [hmoved.slots, h.holder]
    by_cases ha : a = b
    · subst ha
      rw [Function.update_self, hb]
      refine iff_of_false ?_ nofun
      rintro ⟨⟩
      exact hj rfl
    · rw [Function.update_of_ne ha]
  · intro a
    show Function.update s.asid b none a ≠ some i
    by_cases ha : a = b
    · subst ha
      rw [Function.update_self]
      exact nofun
    · rw [Function.update_of_ne ha]
      intro hai
      have hslot := (h.holder a i).2 hai
      rw [(h.holder b i).2 hb] at hslot
      cases hslot
      exact ha rfl

/-- Without a free ASID the last one of the ring is taken from its holder. -/
theorem exists_get_preempt (h : s.Represents L []) (ha : s.asid a = none)
    (hi : L.getLast? = some i) (hL : L.length ≠ 2) :
    ∃ t b, s.get a = some t ∧ s.asid b = some i ∧ t.Represents (i :: L.erase i) [] ∧
      t.asid = Function.update (Function.update s.asid b none) a (some i) := by
  have hiL := List.mem_of_getLast? hi
  obtain ⟨b, hb⟩ := (h.mem_ring i).1 hiL
  have hbi := (h.holder b i).1 hb
  obtain ⟨d, hd, hmoved⟩ := AsidCache.exists_remove h.ring hiL hL
  have hprev : ∃ x, s.cache.lruHead = some x ∧ (s.cache.asids x).prev = some i := by
    have hhead := h.ring.head_eq
    have hcyc := h.ring.cyc
    cases L with
    | nil => cases hiL
    | cons x T => exact ⟨x, hhead, hcyc.prev_head.trans hi⟩
  obtain ⟨x, hx, hxi⟩ := hprev
  have hab : a ≠ b := by
    rintro rfl
    rw [ha] at hbi
    cases hbi
  have ha' : Function.update s.asid b none a = none := by rw [Function.update_of_ne hab, ha]
  obtain ⟨e, he, hrep⟩ := (h.vacant hbi hmoved).exists_insert ha'
  have hslot : (d.asids i).asid = .holder b := by
    rw [← hb, ← hmoved.slots]
    rfl
  have hd' : s.cache.moveAsid i true false = some d := by simp [AsidCache.moveAsid, hd]
  have hfirst : s.cache.firstFree = none := h.free
  refine ⟨_, b, ?_, hbi, hrep, rfl⟩
  simp only [get, ha, allocate, take, hfirst, hx, hxi, hd', hslot, Option.bind_eq_bind,
    Option.bind_some]
  rw [he]
  rfl

/-- A `release` puts the ASID of the object in front of the free list. -/
theorem exists_release (h : s.Represents L F) (hb : s.asid b = some i) (hL : L.length ≠ 2) :
    ∃ t, s.release b = some t ∧ t.Represents (L.erase i) (i :: F) ∧
      t.asid = Function.update s.asid b none := by
  have hi := h.mem_of_asid hb
  obtain ⟨d, hd, hmoved⟩ := AsidCache.exists_remove h.ring hi hL
  have hvac := h.vacant hb hmoved
  have hd' : s.cache.moveAsid i true false = some d := by simp [AsidCache.moveAsid, hd]
  refine ⟨⟨{ (d.setAsid i .free).setNext i d.firstFree with firstFree := some i },
    Function.update s.asid b none⟩, ?_, ?_, rfl⟩
  · simp only [release, hb, hd', Option.bind_eq_bind, Option.bind_some]
    rfl
  have hlinks : ((d.setAsid i .free).setNext i d.firstFree).links =
      Ring.setNext d.links i d.firstFree := by
    rw [AsidCache.links_setNext, AsidCache.links_setAsid]
  have hslots : ((d.setAsid i .free).setNext i d.firstFree).slots =
      Function.update d.slots i .free := by
    rw [AsidCache.slots_setNext, AsidCache.slots_setAsid]
  have hself : ((d.setAsid i .free).setNext i d.firstFree).slots i = .free := by
    rw [hslots, Function.update_self]
  have hother : ∀ j ≠ i, ((d.setAsid i .free).setNext i d.firstFree).slots j = d.slots j := by
    intro j hj
    rw [hslots, Function.update_of_ne hj]
  refine ⟨⟨hvac.ring.head_eq, ?_⟩, ?_, List.nodup_cons.2 ⟨hvac.notMem_free, h.freeNodup⟩, ?_, ?_,
    ?_⟩
  · show Cyc ((d.setAsid i .free).setNext i d.firstFree).links _
    rw [hlinks]
    refine hvac.ring.cyc.congr fun j hj => setNext_of_ne ?_ _
    rintro rfl
    exact hvac.notMem_ring hj
  · show Stack.IsStack (fun j => (((d.setAsid i .free).setNext i d.firstFree).links j).next)
      (some i) (i :: F)
    have hpush := hvac.free.push hvac.notMem_free
    refine hpush.congr fun j _ => ?_
    show (((d.setAsid i .free).setNext i d.firstFree).links j).next = _
    rw [hlinks, setNext_next, Function.update_apply]
  · intro j
    show _ ↔ ∃ a, ((d.setAsid i .free).setNext i d.firstFree).slots j = _
    by_cases hj : j = i
    · subst hj
      rw [hself]
      exact iff_of_false hvac.notMem_ring (by rintro ⟨_, ⟨⟩⟩)
    · rw [hother j hj]
      exact hvac.mem_ring hj
  · intro j
    show _ ↔ ((d.setAsid i .free).setNext i d.firstFree).slots j = _
    by_cases hj : j = i
    · subst hj
      exact iff_of_true (List.mem_cons_self ..) hself
    · rw [hother j hj, List.mem_cons, or_iff_right hj]
      exact hvac.mem_free hj
  · intro c j
    show ((d.setAsid i .free).setNext i d.firstFree).slots j = _ ↔ _
    by_cases hj : j = i
    · subst hj
      rw [hself]
      exact iff_of_false nofun (hvac.notHeld c)
    · rw [hother j hj]
      exact hvac.holder c hj

end AsidState

/-! ## Runs -/

/-- The cache with the times of the last `get` of every ASID. -/
structure TimedAsids (N : Nat) (α : Type) where
  state : AsidState N α
  lastGet : Fin N → Nat
  clock : Nat

inductive AsidOp (α : Type)
  | setValid (start stop : Int)
  | get (a : α)
  | release (a : α)

def AsidSlot.isHeld : AsidSlot α → Bool
  | .holder _ => true
  | _ => false

/-- The number of ASIDs in use. -/
def AsidState.inUse (s : AsidState N α) : Nat :=
  (Finset.univ.filter fun i => (s.cache.slots i).isHeld = true).card

theorem AsidState.Represents.inUse_eq {s : AsidState N α} {L F : List (Fin N)}
    (h : s.Represents L F) : s.inUse = L.length := by
  rw [inUse, ← List.toFinset_card_of_nodup h.ring.cyc.nodup]
  congr 1
  ext i
  rw [Finset.mem_filter, List.mem_toFinset, h.mem_ring]
  cases s.cache.slots i <;> simp [AsidSlot.isHeld]

namespace TimedAsids

variable {s t : TimedAsids N α} {u : AsidState N α} {L M F G : List (Fin N)} {i j : Fin N} {a : α}

def init : TimedAsids N α := ⟨.init, fun _ => 0, 0⟩

/-- The lists of the cache, with the ring in the order of the last `get`, the latest one first. -/
structure Represents (s : TimedAsids N α) (L F : List (Fin N)) : Prop where
  lists : s.state.Represents L F
  order : L.Pairwise fun i j => s.lastGet j < s.lastGet i
  past (i : Fin N) : s.lastGet i ≤ s.clock

/-- `i` is got now. -/
def getNow (s : TimedAsids N α) (u : AsidState N α) (i : Fin N) : TimedAsids N α :=
  ⟨u, Function.update s.lastGet i (s.clock + 1), s.clock + 1⟩

theorem getNow_lastGet_self : (s.getNow u i).lastGet i = s.clock + 1 := Function.update_self ..

theorem getNow_lastGet (h : j ≠ i) : (s.getNow u i).lastGet j = s.lastGet j :=
  Function.update_of_ne h ..

/-- The ASID that is got now goes to the head of the order. -/
theorem Represents.getNow (h : s.Represents L F) (hM : M.Sublist L) (hi : i ∉ M)
    (hlists : u.Represents (i :: M) G) : (s.getNow u i).Represents (i :: M) G where
  lists := hlists
  order := by
    have hother : ∀ j ∈ M, (s.getNow u i).lastGet j = s.lastGet j := by
      intro j hj
      refine getNow_lastGet ?_
      rintro rfl
      exact hi hj
    refine List.pairwise_cons.2 ⟨fun j hj => ?_, ?_⟩
    · rw [hother j hj, getNow_lastGet_self]
      exact Nat.lt_succ_of_le (h.past j)
    · refine (h.order.sublist hM).imp_of_mem fun {j k} hj hk hlt => ?_
      rwa [hother j hj, hother k hk]
  past j := by
    by_cases hj : j = i
    · subst hj
      exact getNow_lastGet_self.le
    · rw [getNow_lastGet hj]
      exact Nat.le_succ_of_le (h.past j)

theorem init_represents : (init : TimedAsids N α).Represents [] [] :=
  ⟨AsidState.init_represents, List.Pairwise.nil, fun _ => le_rfl⟩

/-- The ASID at the end of the ring is the one whose last `get` is the oldest. -/
theorem Represents.oldest (h : s.Represents L F) (hi : L.getLast? = some i) (hj : j ∈ L) :
    s.lastGet i ≤ s.lastGet j := by
  obtain ⟨T, rfl⟩ := List.getLast?_eq_some_iff.1 hi
  rcases List.mem_append.1 hj with hj | hj
  · exact ((List.pairwise_append.1 h.order).2.2 j hj i (List.mem_singleton_self i)).le
  · rw [List.mem_singleton.1 hj]

/-- The ranges of `set_valid` are inside of the array, and no ASID is removed from the ring when
exactly two are in use, or none. -/
def Fits (s : TimedAsids N α) : AsidOp α → Prop
  | .setValid start stop => 0 ≤ start ∧ stop < N
  | .get a =>
    if s.state.asid a = none then
      s.state.cache.firstFree = none → s.state.inUse ≠ 0 ∧ s.state.inUse ≠ 2
    else s.state.inUse ≠ 2
  | .release a => s.state.asid a ≠ none → s.state.inUse ≠ 2

variable [DecidableEq α]

def step (s : TimedAsids N α) : AsidOp α → Option (TimedAsids N α)
  | .setValid start stop => do return { s with state := ← s.state.setValid start stop }
  | .get a => do
    let t ← s.state.get a
    let i ← t.asid a
    return s.getNow t i
  | .release a => do return { s with state := ← s.state.release a }

theorem step_get (hu : s.state.get a = some u) (hi : u.asid a = some i) :
    s.step (.get a) = some (s.getNow u i) := by
  rw [step, hu]
  simp only [Option.bind_eq_bind, Option.bind_some, hi]
  rfl

/-- Without free ASIDs a `get` preempts the ASID whose last `get` is the oldest. -/
theorem Represents.preempt (h : s.Represents L F) (ha : s.state.asid a = none)
    (hfree : s.state.cache.firstFree = none) (hfits : s.Fits (.get a)) :
    ∃ i b u, s.state.asid b = some i ∧ (∀ j ∈ L, s.lastGet i ≤ s.lastGet j) ∧
      s.step (.get a) = some (s.getNow u i) ∧ u.asid a = some i ∧ u.asid b = none ∧
        (s.getNow u i).Represents (i :: L.erase i) F := by
  rw [Fits, if_pos ha, h.lists.inUse_eq] at hfits
  obtain ⟨hne, htwo⟩ := hfits hfree
  obtain rfl := h.lists.free.eq_nil_iff.1 hfree
  obtain ⟨i, hi⟩ : ∃ i, L.getLast? = some i := by
    cases hlast : L.getLast? with
    | none => exact absurd (List.getLast?_eq_none_iff.1 hlast ▸ rfl) hne
    | some i => exact ⟨i, rfl⟩
  obtain ⟨u, b, hu, hb, hrep, hasid⟩ := AsidState.exists_get_preempt h.lists ha hi htwo
  have hui : u.asid a = some i := by rw [hasid, Function.update_self]
  have hba : b ≠ a := by
    rintro rfl
    rw [ha] at hb
    cases hb
  refine ⟨i, b, u, hb, fun j hj => h.oldest hi hj, step_get hu hui, hui, ?_, ?_⟩
  · rw [hasid, Function.update_of_ne hba, Function.update_self]
  · have hnot : i ∉ L.erase i := fun hm => (h.lists.ring.cyc.nodup.mem_erase_iff.1 hm).1 rfl
    exact h.getNow List.erase_sublist hnot hrep

/-- A step that fits has a result, and keeps the lists and their order. -/
theorem Represents.step (h : s.Represents L F) (op : AsidOp α) (hfits : s.Fits op) :
    ∃ t, s.step op = some t ∧ ∃ L' F', t.Represents L' F' := by
  cases op with
  | setValid start stop =>
    obtain ⟨u, A, hu, hrep, -⟩ :=
      AsidState.exists_setValid h.lists start stop hfits.1 hfits.2
    refine ⟨⟨u, s.lastGet, s.clock⟩, ?_, L, A ++ F, hrep, h.order, h.past⟩
    rw [TimedAsids.step, hu]
    rfl
  | get a =>
    cases ha : s.state.asid a with
    | some i =>
      rw [Fits, ha, if_neg nofun, h.lists.inUse_eq] at hfits
      obtain ⟨u, hu, hrep, hasid⟩ := AsidState.exists_get_held h.lists ha hfits
      have hnot : i ∉ L.erase i := fun hm => (h.lists.ring.cyc.nodup.mem_erase_iff.1 hm).1 rfl
      exact ⟨_, step_get hu (hasid ▸ ha), _, _, h.getNow List.erase_sublist hnot hrep⟩
    | none =>
      cases hfree : s.state.cache.firstFree with
      | none =>
        obtain ⟨i, b, u, -, -, hstep, -, -, hrep⟩ := h.preempt ha hfree hfits
        exact ⟨_, hstep, _, _, hrep⟩
      | some i =>
        have hstack := h.lists.free
        rw [hfree] at hstack
        obtain ⟨F', rfl, -⟩ := hstack.exists_cons
        obtain ⟨u, hu, hrep, hasid⟩ := AsidState.exists_get_free h.lists ha
        have hnot : i ∉ L := fun hm => h.lists.notMem_free hm (List.mem_cons_self ..)
        have hui : u.asid a = some i := by rw [hasid, Function.update_self]
        exact ⟨_, step_get hu hui, _, _, h.getNow (List.Sublist.refl L) hnot hrep⟩
  | release a =>
    cases ha : s.state.asid a with
    | none =>
      refine ⟨s, ?_, L, F, h⟩
      rw [TimedAsids.step, AsidState.release, ha]
      rfl
    | some i =>
      rw [Fits, ha, h.lists.inUse_eq] at hfits
      obtain ⟨u, hu, hrep, -⟩ := AsidState.exists_release h.lists ha (hfits nofun)
      refine ⟨⟨u, s.lastGet, s.clock⟩, ?_, L.erase i, i :: F, hrep, ?_, h.past⟩
      · rw [TimedAsids.step, hu]
        rfl
      · exact h.order.sublist List.erase_sublist

/-- The states of the runs whose operations fit. -/
abbrev Reached (ok : TimedAsids N α → AsidOp α → Prop) (s : TimedAsids N α) : Prop :=
  Run.Reach (fun s => s = init) (fun s op t => s.step op = some t) ok s

/-- The invariant of the cache: the LRU links form one ring of exactly the ASIDs in use, in the
order of their last `get`; the free list contains exactly the other valid ones; no two objects hold
one ASID; every operation that fits has a result; and without free ASIDs the one preempted is the
one whose last `get` is the oldest. -/
structure Invariant (s : TimedAsids N α) : Prop where
  lists : ∃ L F, s.Represents L F
  unique {a b : α} {i : Fin N} : s.state.asid a = some i → s.state.asid b = some i → a = b
  defined (op : AsidOp α) : s.Fits op → (s.step op).isSome
  preempts {a : α} : s.state.asid a = none → s.state.cache.firstFree = none → s.Fits (.get a) →
    ∃ i b t, s.step (.get a) = some t ∧ s.state.asid b = some i ∧ t.state.asid a = some i ∧
      t.state.asid b = none ∧ ∀ c j, s.state.asid c = some j → s.lastGet i ≤ s.lastGet j

/-- In every run whose operations fit the cache keeps its invariant. -/
theorem reached_invariant (hs : Reached Fits s) : s.Invariant := by
  have hrep : ∃ L F, s.Represents L F := by
    refine hs.invariant (I := fun s => ∃ L F, s.Represents L F) ?_ ?_
    · rintro s rfl
      exact ⟨[], [], init_represents⟩
    · rintro s op t ⟨L, F, h⟩ hfits hstep
      obtain ⟨t', ht', hrep⟩ := h.step op hfits
      rw [ht'] at hstep
      cases hstep
      exact hrep
  obtain ⟨L, F, h⟩ := hrep
  refine ⟨⟨L, F, h⟩, ?_, ?_, ?_⟩
  · intro a b i ha hb
    have hslot := (h.lists.holder a i).2 ha
    rw [(h.lists.holder b i).2 hb] at hslot
    cases hslot
    rfl
  · intro op hfits
    obtain ⟨t, ht, -⟩ := h.step op hfits
    exact Option.isSome_of_eq_some ht
  · intro a ha hfree hfits
    obtain ⟨i, b, u, hb, hold, hstep, hui, hub, -⟩ := h.preempt ha hfree hfits
    exact ⟨i, b, _, hstep, hb, hui, hub, fun c j hc => hold j (h.lists.mem_of_asid hc)⟩

instance (s : TimedAsids N α) (op : AsidOp α) : Decidable (s.Fits op) := by
  cases op <;> (unfold Fits; infer_instance)

/-- Three objects with an ASID each, one of which is got again; a fourth one preempts the oldest. -/
def preemptingRun : List (AsidOp (Fin 4)) :=
  [.setValid 0 2, .get 0, .get 1, .get 2, .get 0, .get 3, .release 3]

/-- A run that preempts an ASID reaches a state with the invariant. -/
theorem exists_invariant :
    ∃ s : TimedAsids 3 (Fin 4), s.state.asid 1 = none ∧ s.state.inUse = 2 ∧ s.Invariant := by
  have hinit : Reached Fits (init : TimedAsids 3 (Fin 4)) := .init rfl
  have hexec : (Run.exec step Fits preemptingRun (init : TimedAsids 3 (Fin 4))).any
      (fun s => decide (s.state.asid 1 = none ∧ s.state.inUse = 2)) = true := by decide
  obtain ⟨s, hs, hP⟩ := Run.Reach.exists_of_exec hinit hexec
  exact ⟨s, (of_decide_eq_true hP).1, (of_decide_eq_true hP).2, reached_invariant hs⟩

/-- The ranges of `set_valid` are inside of the array. -/
def InRange (_ : TimedAsids N α) : AsidOp α → Prop
  | .setValid start stop => 0 ≤ start ∧ stop < N
  | _ => True

instance (s : TimedAsids N α) (op : AsidOp α) : Decidable (s.InRange op) := by
  cases op <;> (unfold InRange; infer_instance)

/-- Two objects with an ASID each, one of which is got again. -/
def losingRun : List (AsidOp Bool) := [.setValid 0 1, .get true, .get false, .get true]

/-- The ring has lost the other ASID, which is still in use. -/
theorem exists_not_invariant :
    ∃ s : TimedAsids 2 Bool, Reached InRange s ∧ s.state.inUse = 2 ∧ ¬s.Invariant := by
  have hinit : Reached InRange (init : TimedAsids 2 Bool) := .init rfl
  have hexec : (Run.exec step InRange losingRun (init : TimedAsids 2 Bool)).any
      (fun s => decide (s.state.inUse = 2 ∧ (s.state.cache.links 0).next = some 0 ∧
        s.state.cache.slots 0 = .holder true ∧ s.state.cache.slots 1 = .holder false)) = true := by
    decide
  obtain ⟨s, hs, hP⟩ := Run.Reach.exists_of_exec hinit hexec
  obtain ⟨huse, hnext, h0, h1⟩ := of_decide_eq_true hP
  refine ⟨s, hs, huse, fun h => ?_⟩
  obtain ⟨L, F, hL⟩ := h.lists
  have h0L : 0 ∈ L := (hL.lists.mem_ring 0).2 ⟨_, h0⟩
  have h1L : 1 ∈ L := (hL.lists.mem_ring 1).2 ⟨_, h1⟩
  have hsingle := (hL.lists.ring.cyc.next_eq_self_iff h0L).1 hnext
  rw [hsingle] at h1L
  cases List.mem_singleton.1 h1L

end TimedAsids

end L4Thread
