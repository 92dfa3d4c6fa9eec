import L4Thread.Theory.MdbFlush
import L4Thread.Theory.Sigma0Mapnode

/-!
# Mappings that are derived from each other

The database is a forest of mappings. Its nodes stand in traversal order: a mapping stands behind
the one it was made from, and is deeper. So the nodes that `mdb_flush` comes to are the mappings
that all the calls of `mdb_map` so far have derived from the one it starts at, and no others.
-/

namespace L4Thread

/-- What the database is for: the mappings that there are, which mapping each was made from, and
the page table entry it has. -/
structure Mappings where
  live : Set Word
  source : Word → Option Word
  page : Word → Word

namespace Mappings

variable (a : Mappings)

/-- A new mapping. -/
def add (source : Option Word) (new page : Word) : Mappings where
  live := insert new a.live
  source := Function.update a.source new source
  page := Function.update a.page new page

/-- A mapping gets another entry. -/
def grant (x page : Word) : Mappings := { a with page := Function.update a.page x page }

/-- The mappings that a request is about: what was derived from a mapping, and the mapping itself
where it asks for that. -/
def Affected (r : FlushRequest) (p : Word) : Prop :=
  p ∈ a.live ∧ (r.unmapSelf = true ∧ p = r.fMap ∨ Forest.Derived a.source p r.fMap)

/-- Mappings that lose all rights are no mappings. -/
def flush (r : FlushRequest) : Mappings :=
  { a with live := {p | p ∈ a.live ∧ ¬(r.fp.isRwx = true ∧ a.Affected r p)} }

/-- A request for a mapping of the database. -/
structure Permits (r : FlushRequest) : Prop where
  fMap : r.fMap ∈ a.live
  fPg : r.fPg = a.page r.fMap
  size : r.fPgsize ≤ r.tPgsize

/-- A request is answered: the entries of the mappings that it is about lose the rights, with all
rights they are no longer valid and the nodes are freed, and the result are the reference bits of
these mappings. Nothing else changes. -/
structure Answers (root : Word) (r : FlushRequest) (s : FlushState) (v : BitVec 3)
    (s' : FlushState) : Prop where
  bits : ∀ i, v.getLsbD i = true ↔ (r.collected s).getLsbD i = true ∨
    ∃ p, a.Affected r p ∧ (s.entry (a.page p)).referenceBits.getLsbD i = true
  collected : ∀ p, a.Affected r p →
    s'.rwx p = (r.start s).rwx p ||| (s.entry (a.page p)).referenceBits
  revoked : ∀ p, a.Affected r p → s'.entry (a.page p) = r.takeRights (s.entry (a.page p))
  unmapped : ∀ p, a.Affected r p → r.fp.isRwx = true →
    (s'.entry (a.page p)).isValid = false ∧ s'.link (a.page p) = 0
  freed : ∀ p, s'.mdb.used p = true ↔
    s.mdb.used p = true ∧ ¬(r.fp.isRwx = true ∧ a.Affected r p)
  rwx : ∀ p, ¬a.Affected r p → s'.rwx p = s.rwx p
  entry : ∀ e, (∀ p, a.Affected r p → a.page p ≠ e) →
    s'.entry e = s.entry e ∧ s'.link e = s.link e
  node : ∀ p ∉ a.live, s'.mdb.node p = s.mdb.node p
  roots : ∀ q, q ≠ root → s'.mdb.root q = s.mdb.root q
  dual : s'.mdb.dual = s.mdb.dual

/-- The nodes below a root node are the mappings in traversal order. The page they are all part of
is mapped at the depth `base`. -/
structure Represents (base : Nat) (root : Word) (m : Mdb) (L : List Word) : Prop where
  holds : m.Holds a.page root L
  mem : ∀ p, p ∈ L ↔ p ∈ a.live
  forest : Forest.IsForest (fun p => (m.node p).depth.toNat) a.source L
  first : ∀ p ∈ L, a.source p = none → (m.node p).depth.toNat = base + 1
  base_lt : ∀ p ∈ L, base < (m.node p).depth.toNat

end Mappings

/-- What `mdb_map` is asked for. -/
structure MapRequest where
  fMap : Word
  fPg : Word
  fHwpgsize : Nat
  fAddr : Word
  tPg : Word
  tHwpgsize : Nat
  tSpace : Word
  deriving DecidableEq

def MapRequest.mdbMap (c : MapRequest) (b : MdbBuffers) (grant : Bool) (m : Mdb) :
    Option (Word × Mdb) :=
  b.mdbMap c.fMap c.fPg c.fHwpgsize c.fAddr c.tPg c.tHwpgsize c.tSpace grant m

/-- The answer of `mdb_flush`, which returns. -/
def FlushRequest.Returns (r : FlushRequest) (s : FlushState) (v : BitVec 3) (s' : FlushState) :
    Prop :=
  ∃ n, ∀ fuel, n ≤ fuel → r.mdbFlush fuel s = some (v, s')

theorem FlushRequest.Returns.unique {r : FlushRequest} {s s' s'' : FlushState} {v v' : BitVec 3}
    (h : r.Returns s v s') (h' : r.Returns s v' s'') : v = v' ∧ s' = s'' := by
  obtain ⟨n, hn⟩ := h
  obtain ⟨n', hn'⟩ := h'
  have heq := (hn (max n n') (Nat.le_max_left ..)).symm.trans (hn' _ (Nat.le_max_right ..))
  cases heq
  exact ⟨rfl, rfl⟩

/-- The calls for the mappings below a root node, with what else happens between them. -/
inductive MappingRun (b : MdbBuffers) (base : Nat) (root : Word) : FlushState → Mappings → Prop
  | init {s : FlushState} {page : Word → Word} (hroot : s.mdb.root root = .map 0) :
    MappingRun b base root s ⟨∅, fun _ => none, page⟩
  /-- A mapping is mapped on. Its depth has eight bits. -/
  | share {s : FlushState} {a : Mappings} {c : MapRequest} {new : Word} {mdb : Mdb}
    (h : MappingRun b base root s a) (hsource : c.fMap ∈ a.live)
    (hsize : mdbPgsize c.fHwpgsize = mdbPgsize c.tHwpgsize)
    (hdepth : (s.mdb.node c.fMap).depth.toNat < 255) (hpage : ∀ p ∈ a.live, a.page p ≠ c.tPg)
    (hcall : c.mdbMap b false s.mdb = some (new, mdb)) :
    MappingRun b base root { s with mdb } (a.add (some c.fMap) new c.tPg)
  /-- A part of a larger page is mapped. -/
  | part {s : FlushState} {a : Mappings} {c : MapRequest} {new : Word} {mdb : Mdb}
    (h : MappingRun b base root s a) (hsize : mdbPgsize c.tHwpgsize < mdbPgsize c.fHwpgsize)
    (hplace : s.mdb.placeBelow c.fAddr (mdbPgsize c.fHwpgsize)
      (mdbPgsize c.fHwpgsize - mdbPgsize c.tHwpgsize) (.node c.fMap) = some (.root root))
    (hdepth : (s.mdb.node c.fMap).depth.toNat = base) (hbase : base < 255)
    (hpage : ∀ p ∈ a.live, a.page p ≠ c.tPg) (hcall : c.mdbMap b false s.mdb = some (new, mdb)) :
    MappingRun b base root { s with mdb } (a.add none new c.tPg)
  | grant {s : FlushState} {a : Mappings} {c : MapRequest} {new : Word} {mdb : Mdb}
    (h : MappingRun b base root s a) (hsource : c.fMap ∈ a.live) (hfPg : c.fPg = a.page c.fMap)
    (hpage : ∀ p ∈ a.live, p ≠ c.fMap → a.page p ≠ c.tPg)
    (hcall : c.mdbMap b true s.mdb = some (new, mdb)) :
    MappingRun b base root { s with mdb } (a.grant c.fMap c.tPg)
  | flush {s s' : FlushState} {a : Mappings} {r : FlushRequest} {v : BitVec 3}
    (h : MappingRun b base root s a) (hr : a.Permits r) (hcall : r.Returns s v s') :
    MappingRun b base root s' (a.flush r)
  /-- The rest of the database and the entries change. -/
  | other {s s' : FlushState} {a : Mappings} (h : MappingRun b base root s a)
    (hroot : s'.mdb.root root = s.mdb.root root)
    (hnode : ∀ p ∈ a.live, s'.mdb.node p = s.mdb.node p)
    (hused : ∀ p ∈ a.live, s'.mdb.used p = true) : MappingRun b base root s' a

namespace Mappings

variable {a : Mappings} {b : MdbBuffers} {base : Nat} {root : Word} {m m' : Mdb}
  {L : List Word} {r : FlushRequest} {s s' : FlushState} {v : BitVec 3}

/-! ## Maps and grants -/

theorem add_source_self {source : Option Word} {new page : Word} :
    (a.add source new page).source new = source :=
  Function.update_self ..

theorem add_source_of_ne {source : Option Word} {p new page : Word} (h : p ≠ new) :
    (a.add source new page).source p = a.source p :=
  Function.update_of_ne h ..

theorem Represents.other (h : a.Represents base root m L) (hroot : m'.root root = m.root root)
    (hnode : ∀ p ∈ a.live, m'.node p = m.node p) (hused : ∀ p ∈ a.live, m'.used p = true) :
    a.Represents base root m' L := by
  have hnode' : ∀ p ∈ L, m'.node p = m.node p := fun p hp => hnode p ((h.mem p).1 hp)
  refine ⟨⟨h.holds.linked.congr hroot hnode' fun _ _ => rfl, h.holds.nodup, h.holds.pages,
    fun p hp => hused p ((h.mem p).1 hp)⟩, h.mem, ?_, fun p hp => ?_, fun p hp => ?_⟩
  · exact h.forest.congr fun p hp => by rw [hnode' p hp]
  · rw [hnode' p hp]
    exact h.first p hp
  · rw [hnode' p hp]
    exact h.base_lt p hp

theorem Represents.grant {x tPg tSpace : Word} (h : a.Represents base root m L) (hx : x ∈ a.live)
    (hpage : ∀ p ∈ a.live, p ≠ x → a.page p ≠ tPg) :
    (a.grant x tPg).Represents base root
      (m.granted x ((m.node x).prev ^^^ a.page x) tPg tSpace) L := by
  obtain ⟨A, B, rfl⟩ := List.append_of_mem ((h.mem x).2 hx)
  have hfresh : tPg ∉ (A ++ B).map a.page := by
    intro hmem
    obtain ⟨p, hp, rfl⟩ := List.mem_map.1 hmem
    obtain ⟨hnotin, -⟩ := List.nodup_cons.1 (List.nodup_middle.1 h.holds.nodup)
    have hlive := (h.mem p).1 (List.perm_middle.mem_iff.2 (List.mem_cons_of_mem _ hp))
    refine hpage p hlive ?_ rfl
    rintro rfl
    exact hnotin hp
  refine ⟨h.holds.grant hfresh, h.mem, ?_, fun p hp => ?_, fun p hp => ?_⟩
  · exact h.forest.congr fun p _ => by rw [Mdb.depth_granted]
  · rw [Mdb.depth_granted]
    exact h.first p hp
  · rw [Mdb.depth_granted]
    exact h.base_lt p hp

/-- A call of `mdb_map` that is no grant. -/
theorem mdbMap_cases {c : MapRequest} {new : Word} {q : MdbPlace}
    (hplace : m.placeBelow c.fAddr (mdbPgsize c.fHwpgsize)
      (mdbPgsize c.fHwpgsize - mdbPgsize c.tHwpgsize) (.node c.fMap) = some q)
    (hcall : c.mdbMap b false m = some (new, m')) : m.used new = false ∧ new ≠ 0 ∧
      b.hook new c.tPg c.tSpace ((m.node c.fMap).depth + 1) q
        { m with used := Function.update m.used new true } = some m' := by
  rw [MapRequest.mdbMap, MdbBuffers.mdbMap, if_neg Bool.false_ne_true] at hcall
  split at hcall
  · cases hcall
  · cases halloc : b.alloc m mapnodeSize with
    | none =>
      rw [MdbBuffers.allocBuffer, halloc] at hcall
      cases hcall
    | some new' =>
      rw [MdbBuffers.allocBuffer, halloc] at hcall
      simp only [Option.map_some, Option.bind_eq_bind, Option.bind_some,
        Mdb.intoSubtree_eq hplace] at hcall
      obtain ⟨m'', hhook, heq⟩ := Option.bind_eq_some_iff.1 hcall
      cases heq
      exact ⟨b.unused halloc, b.ne_zero halloc, hhook⟩

/-- The new node is put in between two parts of the chain. -/
theorem Represents.hook {c : MapRequest} {new : Word} {q : MdbPlace} {A B : List Word}
    (h : a.Represents base root m (A ++ B)) (hsegment : m.Segment a.page (.root root) A q)
    (hplace : m.placeBelow c.fAddr (mdbPgsize c.fHwpgsize)
      (mdbPgsize c.fHwpgsize - mdbPgsize c.tHwpgsize) (.node c.fMap) = some q)
    (hpage : ∀ p ∈ a.live, a.page p ≠ c.tPg) (hcall : c.mdbMap b false m = some (new, m')) :
    new ∉ A ++ B ∧ m'.Holds (Function.update a.page new c.tPg) root (A ++ new :: B) ∧
      (m'.node new).depth = (m.node c.fMap).depth + 1 ∧
      ∀ p, p ≠ new → (m'.node p).depth = (m.node p).depth := by
  obtain ⟨hunused, hne, hhook⟩ := mdbMap_cases hplace hcall
  have hnew : new ∉ A ++ B := by
    intro hmem
    have hused := h.holds.used new hmem
    rw [hunused] at hused
    cases hused
  have hfresh : c.tPg ∉ (A ++ B).map a.page := by
    intro hmem
    obtain ⟨p, hp, hpg⟩ := List.mem_map.1 hmem
    exact hpage p ((h.mem p).1 hp) hpg
  obtain ⟨hA, -, -⟩ := List.nodup_append'.1 h.holds.nodup
  have hholds : Mdb.Holds { m with used := Function.update m.used new true } a.page root
      (A ++ B) := by
    refine ⟨h.holds.linked.congr rfl (fun _ _ => rfl) fun _ _ => rfl, h.holds.nodup,
      h.holds.pages, fun p hp => ?_⟩
    by_cases heq : p = new
    · exact absurd (heq ▸ hp) hnew
    · exact (Function.update_of_ne heq ..).trans (h.holds.used p hp)
  have hsegment' : Mdb.Segment { m with used := Function.update m.used new true } a.page
      (.root root) A q :=
    hsegment.congr hA (by rintro p - ⟨⟩) (fun _ => rfl) (fun _ _ _ => rfl) (fun _ _ => rfl)
      (fun _ _ => rfl) fun _ _ => rfl
  obtain ⟨m'', hm'', hrest⟩ := hholds.hook (b := b) c.tSpace
    ((m.node c.fMap).depth + 1) hsegment' hne hnew (Function.update_self ..) hfresh
  cases hhook.symm.trans hm''
  exact ⟨hnew, hrest⟩

theorem Represents.insert {source : Option Word} {new page : Word} {A B : List Word}
    (h : a.Represents base root m (A ++ B)) (hnew : new ∉ A ++ B)
    (hholds : m'.Holds (Function.update a.page new page) root (A ++ new :: B))
    (hkeep : ∀ p, p ≠ new → (m'.node p).depth = (m.node p).depth)
    (hforest : Forest.IsForest (fun p => (m'.node p).depth.toNat)
      (Function.update a.source new source) (A ++ new :: B))
    (hfirst : source = none → (m'.node new).depth.toNat = base + 1)
    (hbase : base < (m'.node new).depth.toNat) :
    (a.add source new page).Represents base root m' (A ++ new :: B) := by
  have hmem : ∀ p, p ∈ A ++ new :: B ↔ p = new ∨ p ∈ A ++ B :=
    fun p => List.perm_middle.mem_iff.trans List.mem_cons
  have hne : ∀ p ∈ A ++ B, p ≠ new := by
    rintro p hp rfl
    exact hnew hp
  refine ⟨hholds, fun p => ?_, hforest, fun p hp hsource => ?_, fun p hp => ?_⟩
  · rw [hmem, h.mem]
    rfl
  · rcases (hmem p).1 hp with rfl | hp
    · rw [add_source_self] at hsource
      exact hfirst hsource
    · rw [add_source_of_ne (hne p hp)] at hsource
      rw [hkeep p (hne p hp)]
      exact h.first p hp hsource
  · rcases (hmem p).1 hp with rfl | hp
    · exact hbase
    · rw [hkeep p (hne p hp)]
      exact h.base_lt p hp

/-- A mapping is made from another. -/
theorem Represents.share {c : MapRequest} {new : Word} (h : a.Represents base root m L)
    (hsource : c.fMap ∈ a.live) (hsize : mdbPgsize c.fHwpgsize = mdbPgsize c.tHwpgsize)
    (hdepth : (m.node c.fMap).depth.toNat < 255) (hpage : ∀ p ∈ a.live, a.page p ≠ c.tPg)
    (hcall : c.mdbMap b false m = some (new, m')) :
    ∃ L', (a.add (some c.fMap) new c.tPg).Represents base root m' L' := by
  have hmem := (h.mem c.fMap).2 hsource
  obtain ⟨A, B, rfl⟩ := List.append_of_mem hmem
  have hplace : m.placeBelow c.fAddr (mdbPgsize c.fHwpgsize)
      (mdbPgsize c.fHwpgsize - mdbPgsize c.tHwpgsize) (.node c.fMap) = some (.node c.fMap) := by
    rw [hsize, Nat.sub_self]
    rfl
  obtain ⟨q, hA, hfollows, -⟩ := Mdb.linked_append.1 h.holds.linked
  have hforest := h.forest
  have hlt := h.base_lt c.fMap hmem
  rw [List.append_cons] at h hmem hforest
  obtain ⟨hnew, hholds, hnewdepth, hkeep⟩ := h.hook (hA.concat hfollows) hplace hpage hcall
  have hsucc : (m'.node new).depth.toNat = (m.node c.fMap).depth.toNat + 1 := by
    rw [hnewdepth, BitVec.toNat_add]
    exact Nat.mod_eq_of_lt (by simp; omega)
  refine ⟨_, h.insert hnew hholds hkeep ?_ (fun hnone => by cases hnone) (by omega)⟩
  have hinsert := hforest.insertBehind hmem hnew
  rw [← List.append_cons, Forest.insertBehind_eq] at hinsert
  · rw [← List.append_cons]
    refine hinsert.congr fun p hp => ?_
    by_cases heq : p = new
    · subst heq
      rw [Function.update_self, hsucc]
    · rw [Function.update_of_ne heq, hkeep p heq]
  · rw [List.append_cons]
    exact h.holds.nodup

/-- A mapping is made from a larger page. -/
theorem Represents.part {c : MapRequest} {new : Word} (h : a.Represents base root m L)
    (hplace : m.placeBelow c.fAddr (mdbPgsize c.fHwpgsize)
      (mdbPgsize c.fHwpgsize - mdbPgsize c.tHwpgsize) (.node c.fMap) = some (.root root))
    (hdepth : (m.node c.fMap).depth.toNat = base) (hbase : base < 255)
    (hpage : ∀ p ∈ a.live, a.page p ≠ c.tPg) (hcall : c.mdbMap b false m = some (new, m')) :
    ∃ L', (a.add none new c.tPg).Represents base root m' L' := by
  obtain ⟨hnew, hholds, hnewdepth, hkeep⟩ := Represents.hook (A := []) h rfl hplace hpage hcall
  rw [List.nil_append] at hnew
  have hsucc : (m'.node new).depth.toNat = base + 1 := by
    rw [hnewdepth, BitVec.toNat_add, hdepth]
    exact Nat.mod_eq_of_lt (by simp; omega)
  have hne : ∀ p ∈ L, p ≠ new := by
    rintro p hp rfl
    exact hnew hp
  refine ⟨_, Represents.insert (A := []) h hnew hholds hkeep ?_ (fun _ => hsucc) (by omega)⟩
  have hforest : Forest.IsForest (fun p => (m'.node p).depth.toNat) a.source L :=
    h.forest.congr fun p hp => by rw [hkeep p (hne p hp)]
  refine hforest.cons hnew (fun p hp => ?_) fun p hp hparent => ?_
  · rw [hsucc, hkeep p (hne p hp)]
    exact h.base_lt p hp
  · rw [hsucc, hkeep p (hne p hp), h.first p hp hparent]

/-! ## Flushes -/

theorem isValid_takeRights {e : Pgent} (h : r.fp.isRwx = true) :
    (r.takeRights e).isValid = false := by
  rw [FlushRequest.takeRights, if_pos h, Pgent.cleared]
  split <;> rfl

/-- The nodes that `mdb_flush` comes to. -/
theorem Represents.mem_range_iff {A B : List Word} {p : Word}
    (h : a.Represents base root m (A ++ r.fMap :: B)) :
    p ∈ r.range (Forest.below (fun p => (m.node p).depth.toNat) r.fMap B) ↔ a.Affected r p := by
  have hbelow : p ∈ Forest.below (fun p => (m.node p).depth.toNat) r.fMap B ↔
      p ∈ a.live ∧ Forest.Derived a.source p r.fMap := by
    rw [← h.mem]
    constructor
    · intro hp
      have hmem : p ∈ A ++ r.fMap :: B :=
        List.mem_append_right _ (List.mem_cons_of_mem _ (List.takeWhile_subset _ hp))
      exact ⟨hmem, (h.forest.mem_below_iff hmem).1 hp⟩
    · rintro ⟨hmem, hderived⟩
      exact (h.forest.mem_below_iff hmem).2 hderived
  have hlive : r.fMap ∈ a.live := (h.mem _).1 (by simp)
  rw [FlushRequest.range, Affected]
  cases r.unmapSelf with
  | true =>
    rw [if_pos rfl, List.mem_cons, hbelow]
    constructor
    · rintro (rfl | ⟨hp, hderived⟩)
      · exact ⟨hlive, .inl ⟨rfl, rfl⟩⟩
      · exact ⟨hp, .inr hderived⟩
    · rintro ⟨hp, ⟨-, rfl⟩ | hderived⟩
      · exact .inl rfl
      · exact .inr ⟨hp, hderived⟩
  | false =>
    rw [if_neg Bool.false_ne_true, hbelow]
    simp

/-- The nodes that are left are the mappings that are left. -/
theorem Represents.filter {R : List Word} (h : a.Represents base root m L)
    (hR : ∀ p, p ∈ R ↔ a.Affected r p)
    (hholds : m'.Holds a.page root (L.filter fun p => p ∉ r.freed R))
    (hdepth : ∀ p, (m'.node p).depth = (m.node p).depth) :
    (a.flush r).Represents base root m' (L.filter fun p => p ∉ r.freed R) := by
  have hmem : ∀ p, p ∈ L.filter (fun p => p ∉ r.freed R) ↔
      p ∈ a.live ∧ ¬(r.fp.isRwx = true ∧ a.Affected r p) := by
    intro p
    rw [List.mem_filter, h.mem, decide_eq_true_iff, FlushRequest.mem_freed, hR]
  refine ⟨hholds, hmem, ?_, fun p hp hsource => ?_, fun p hp => ?_⟩
  · refine (h.forest.filter fun {y x} hy hkept hparent => ?_).congr fun p _ => by rw [hdepth]
    rw [decide_eq_true_iff, FlushRequest.mem_freed, hR] at hkept ⊢
    -- what is derived from a mapping goes with it
    rintro ⟨hrights, -, hx⟩
    refine hkept ⟨hrights, (h.mem y).1 hy, .inr ?_⟩
    rcases hx with ⟨-, rfl⟩ | hx
    · exact .single hparent
    · exact .head hparent hx
  · rw [hdepth]
    exact h.first p (List.mem_of_mem_filter hp) hsource
  · rw [hdepth]
    exact h.base_lt p (List.mem_of_mem_filter hp)

/-- What `mdb_flush` does to the nodes that it comes to. -/
theorem Represents.answers {R A C : List Word} (h : a.Represents base root s.mdb (A ++ (R ++ C)))
    (hr : a.Permits r) (hR : ∀ p, p ∈ R ↔ a.Affected r p)
    (hrevokes : r.Revokes root a.page A R C (r.collected s) (r.start s) v s') :
    a.Answers root r s v s' := by
  have hpage : ∀ p, a.Affected r p → a.page p ∈ R.map a.page :=
    fun p hp => List.mem_map_of_mem ((hR p).2 hp)
  have hrevoked : ∀ p, a.Affected r p →
      s'.entry (a.page p) = r.takeRights (s.entry (a.page p)) := by
    intro p hp
    rw [hrevokes.entry, if_pos (hpage p hp), FlushRequest.start_entry]
  have hmdb := hrevokes.mdb
  rw [FlushRequest.start_mdb] at hmdb
  refine ⟨fun i => ?_, fun p hp => ?_, hrevoked, fun p hp hrights => ⟨?_, ?_⟩, fun p => ?_,
    fun p hp => ?_, fun e he => ?_, fun p hp => ?_, hmdb.root, hmdb.dual⟩
  · rw [hrevokes.bits, FlushRequest.start_entry]
    exact or_congr_right (exists_congr fun p => and_congr_left' (hR p))
  · rw [hrevokes.rwx, if_pos ((hR p).2 hp), FlushRequest.start_entry]
  · rw [hrevoked p hp]
    exact isValid_takeRights hrights
  · rw [hrevokes.link, if_pos ⟨hrights, hpage p hp⟩]
  · rw [hmdb.used, FlushRequest.mem_freed, hR]
  · rw [hrevokes.rwx, if_neg (mt (hR p).1 hp), FlushRequest.start]
    split
    · rename_i hself
      refine Function.update_of_ne ?_ ..
      rintro rfl
      exact hp ⟨hr.fMap, .inl ⟨hself, rfl⟩⟩
    · rfl
  · have hnotin : e ∉ R.map a.page := by
      intro hmem
      obtain ⟨p, hp, rfl⟩ := List.mem_map.1 hmem
      exact he p ((hR p).1 hp) rfl
    rw [hrevokes.entry, if_neg hnotin, FlushRequest.start_entry, hrevokes.link,
      if_neg fun h => hnotin h.2, FlushRequest.start_link]
    exact ⟨rfl, rfl⟩
  · exact hmdb.node p (mt (h.mem p).1 hp)

theorem Represents.flush (h : a.Represents base root s.mdb L) (hr : a.Permits r)
    (hroot : root ≠ 0) : ∃ v s', r.Returns s v s' ∧ a.Answers root r s v s' ∧
      ∃ L', (a.flush r).Represents base root s'.mdb L' := by
  obtain ⟨A, B, rfl⟩ := List.append_of_mem ((h.mem r.fMap).2 hr.fMap)
  obtain ⟨v, s', A', C, hrun, hL, hrevokes⟩ :=
    FlushRequest.exists_mdbFlush h.holds hr.fPg hr.size hroot
  have hR := fun p => h.mem_range_iff (p := p)
  generalize r.range _ = R at hL hrevokes hR
  have hnodup := h.holds.nodup
  have hdepth : ∀ p, (s'.mdb.node p).depth = (s.mdb.node p).depth := by
    intro p
    rw [hrevokes.mdb.depth, FlushRequest.start_mdb]
  refine ⟨v, s', ⟨B.length + 1, fun fuel hfuel => ?_⟩, ?_, _, h.filter hR ?_ hdepth⟩
  · obtain ⟨fuel, rfl⟩ := Nat.exists_eq_add_of_le' hfuel
    exact hrun _ (Nat.le_add_left _ _)
  · exact (hL ▸ h).answers hr hR hrevokes
  · rw [hL] at hnodup ⊢
    rw [FlushRequest.filter_freed hnodup]
    exact hrevokes.holds

end Mappings

/-! ## Runs -/

namespace MappingRun

variable {b : MdbBuffers} {base : Nat} {root : Word} {s : FlushState} {a : Mappings}

/-- The nodes below a root node are the mappings that the calls so far have made, each behind the
one it was made from. -/
theorem represents_forest (hroot : root ≠ 0) (h : MappingRun b base root s a) :
    ∃ L, a.Represents base root s.mdb L := by
  induction h with
  | init hlink =>
    refine ⟨[], ⟨hlink, List.nodup_nil, List.nodup_nil, ?_⟩, fun p => ?_, ⟨List.nodup_nil, ?_, ?_⟩,
      ?_, ?_⟩
    · rintro p ⟨⟩
    · exact iff_of_false List.not_mem_nil (Set.notMem_empty p)
    · rintro y x ⟨⟩
    · rintro y x ⟨⟩
    · rintro p ⟨⟩
    · rintro p ⟨⟩
  | share _ hsource hsize hdepth hpage hcall ih =>
    obtain ⟨L, hL⟩ := ih
    exact hL.share hsource hsize hdepth hpage hcall
  | part _ _ hplace hdepth hbase hpage hcall ih =>
    obtain ⟨L, hL⟩ := ih
    exact hL.part hplace hdepth hbase hpage hcall
  | grant _ hsource hfPg hpage hcall ih =>
    obtain ⟨L, hL⟩ := ih
    rw [MapRequest.mdbMap, Mdb.mdbMap_grant, hfPg] at hcall
    cases hcall
    exact ⟨L, hL.grant hsource hpage⟩
  | flush _ hr hcall ih =>
    obtain ⟨L, hL⟩ := ih
    obtain ⟨v, s', hreturns, -, hflush⟩ := hL.flush hr hroot
    obtain ⟨rfl, rfl⟩ := hcall.unique hreturns
    exact hflush
  | other _ hlink hnode hused ih =>
    obtain ⟨L, hL⟩ := ih
    exact ⟨L, hL.other hlink hnode hused⟩

/-- Every request is answered after every run. -/
theorem flush_answers (hroot : root ≠ 0) (h : MappingRun b base root s a) {r : FlushRequest}
    (hr : a.Permits r) : ∃ v s', r.Returns s v s' ∧ a.Answers root r s v s' := by
  obtain ⟨L, hL⟩ := h.represents_forest hroot
  obtain ⟨v, s', hreturns, hanswers, -⟩ := hL.flush hr hroot
  exact ⟨v, s', hreturns, hanswers⟩

/-! ### Two mappings of a page -/

/-- A larger page, with an array of roots below its node. -/
def sampleMdb : Mdb where
  node p := if p = 0x800 then ⟨false, 0, 0, 0, .root 0x100⟩ else .zero
  root _ := .map 0
  dual _ := ⟨0, 0⟩
  used p := p = 0x800

def sampleStart : FlushState := ⟨sampleMdb, fun _ => 0, fun _ => .zero, fun _ => 0⟩

def samplePart : MapRequest := ⟨0x800, 0, 1, 0, 0x10000, 0, 0x20000⟩

def sampleShare : MapRequest := ⟨0x1000, 0x10000, 0, 0, 0x10008, 0, 0x30000⟩

/-- All rights are taken from what was made from the first mapping. -/
def sampleFlush : FlushRequest := ⟨0x1000, 0x10000, 0, 0, 0, ⟨7⟩, false⟩

/-- The second mapping is made from the one of the request. -/
theorem exists_sampleRun : ∃ s a, MappingRun Mapper.sampleMapper.buffers 0 0x100 s a ∧
    a.Permits sampleFlush ∧ a.Affected sampleFlush 0x2000 := by
  have hinit : MappingRun Mapper.sampleMapper.buffers 0 0x100 sampleStart
      ⟨∅, fun _ => none, fun _ => 0⟩ := .init rfl
  have hcalls : (do
      let part ← samplePart.mdbMap Mapper.sampleMapper.buffers false sampleMdb
      let share ← sampleShare.mdbMap Mapper.sampleMapper.buffers false part.2
      return (part.1, (part.2.node part.1).depth, share.1, (share.2.node share.1).depth))
        = some (0x1000, 1, 0x2000, 2) := by
    decide
  obtain ⟨⟨x, m⟩, hpart, hcalls⟩ := Option.bind_eq_some_iff.1 hcalls
  obtain ⟨⟨y, m'⟩, hshare, hcalls⟩ := Option.bind_eq_some_iff.1 hcalls
  simp only [Option.pure_def, Option.some.injEq, Prod.mk.injEq] at hcalls
  obtain ⟨rfl, hx, rfl, -⟩ := hcalls
  have hdepth : (m.node 0x1000).depth.toNat < 255 := by
    rw [hx]
    decide
  have hrun := (hinit.part (c := samplePart) (by decide) (by decide) rfl (by decide)
    (fun p hp => absurd hp (Set.notMem_empty p)) hpart).share (c := sampleShare)
      (Set.mem_insert ..) rfl hdepth (fun p hp => ?_) hshare
  · refine ⟨_, _, hrun, ⟨.inr (.inl rfl), rfl, by decide⟩, .inl rfl, .inr (.single rfl)⟩
  · rcases hp with rfl | hp
    · decide
    · exact absurd hp (Set.notMem_empty p)

theorem exists_represents_forest : ∃ s a L, MappingRun Mapper.sampleMapper.buffers 0 0x100 s a ∧
    a.Permits sampleFlush ∧ a.Represents 0 0x100 s.mdb L := by
  obtain ⟨s, a, h, hr, -⟩ := exists_sampleRun
  obtain ⟨L, hL⟩ := represents_forest (by decide) h
  exact ⟨s, a, L, h, hr, hL⟩

theorem exists_flush_answers : ∃ s a v s', MappingRun Mapper.sampleMapper.buffers 0 0x100 s a ∧
    a.Affected sampleFlush 0x2000 ∧ sampleFlush.Returns s v s' ∧
    a.Answers 0x100 sampleFlush s v s' := by
  obtain ⟨s, a, h, hr, hp⟩ := exists_sampleRun
  obtain ⟨v, s', hreturns, hanswers⟩ := flush_answers (by decide) h hr
  exact ⟨s, a, v, s', h, hp, hreturns, hanswers⟩

end MappingRun

end L4Thread
