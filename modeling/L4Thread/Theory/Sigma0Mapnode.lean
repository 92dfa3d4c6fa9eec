import L4Thread.Kernel.Mapping
import L4Thread.Lib.Mask
import L4Thread.Lib.Run
import L4Thread.Theory.PageTable

/-!
# The node of sigma0

Mappings from sigma0 are inserted below one static node that stands for the whole address space.
`mdb_map` hooks a mapping into the arrays below that node and leaves the node alone. A grant takes
the node of the source over, and a grant from sigma0 the static one.
-/

namespace L4Thread

/-! ## The database -/

/-- The link is not to the node `s`, nor to the dual node `d`. -/
def NextLink.Avoids (s d : Word) (l : NextLink) : Prop :=
  l.isNextMap = true → if l.isNextRoot then l.ptr ≠ d else l.ptr ≠ s

/-- The node `s` owns the address space, with the dual node `d` and the array `roots` below it, and
nothing else leads to it or to the dual node. -/
structure Mdb.Rooted (s d roots : Word) (m : Mdb) : Prop where
  node : m.node s = ⟨false, 0, 0, 0, .dual d⟩
  dual : m.dual d = ⟨0, roots⟩
  used : m.used s = true
  used_dual : m.used d = true
  avoids_node : ∀ p, p ≠ s → (m.node p).next.Avoids s d
  avoids_root : ∀ r, (m.root r).Avoids s d
  dual_map : ∀ d, (m.dual d).map ≠ s

namespace MdbBuffers

variable {b : MdbBuffers} {s d roots a p q r : Word} {m m' : Mdb} {l : NextLink} {n size : Nat}
  {place place' : MdbPlace}

theorem avoids_map (h : a ≠ s) : (NextLink.map a).Avoids s d := fun _ => h

theorem avoids_root : (NextLink.root a).Avoids s d := nofun

theorem avoids_dual (h : a ≠ d) : (NextLink.dual a).Avoids s d := fun _ => h

/-- The database after a buffer was taken. -/
theorem allocBuffer_cases (h : b.allocBuffer n m = some (a, m')) :
    m.used a = false ∧ a ≠ 0 ∧ m' = { m with used := Function.update m.used a true } := by
  obtain ⟨a', ha, heq⟩ := Option.map_eq_some_iff.mp h
  cases heq
  exact ⟨b.unused ha, b.ne_zero ha, rfl⟩

/-- Buffers that were in use stay so. -/
def Grows (m m' : Mdb) : Prop := ∀ a, m.used a = true → m'.used a = true

theorem Grows.refl : Grows m m := fun _ h => h

theorem Grows.trans {m'' : Mdb} (h : Grows m m') (h' : Grows m' m'') : Grows m m'' :=
  fun a ha => h' a (h a ha)

theorem grows_alloc : Grows m { m with used := Function.update m.used a true } := by
  intro p hp
  change Function.update m.used a true p = true
  rw [Function.update_apply]
  split
  · rfl
  · exact hp

theorem grows_setNext : Grows m (m.setNext place l) := by
  intro a ha
  cases place with
  | node _ => exact ha
  | root _ => exact ha

end MdbBuffers

namespace Mdb.Rooted

open MdbBuffers

variable {b : MdbBuffers} {s d roots a p q r : Word} {m m' : Mdb} {l : NextLink} {n size : Nat}
  {place place' : MdbPlace}

theorem alloc (h : m.Rooted s d roots) :
    ({ m with used := Function.update m.used a true } : Mdb).Rooted s d roots :=
  { h with used := grows_alloc _ h.used, used_dual := grows_alloc _ h.used_dual }

theorem setNode {e : MapNode} (h : m.Rooted s d roots) (hp : p ≠ s) (he : e.next.Avoids s d) :
    (m.setNode p e).Rooted s d roots where
  node := (Function.update_of_ne hp.symm _ _).trans h.node
  dual := h.dual
  used := h.used
  used_dual := h.used_dual
  avoids_node q hq := by
    change (Function.update m.node p e q).next.Avoids s d
    rw [Function.update_apply]
    split
    · exact he
    · exact h.avoids_node q hq
  avoids_root := h.avoids_root
  dual_map := h.dual_map

theorem setDual {e : DualNode} (h : m.Rooted s d roots) (hp : p ≠ d) (he : e.map ≠ s) :
    (m.setDual p e).Rooted s d roots where
  node := h.node
  dual := (Function.update_of_ne hp.symm _ _).trans h.dual
  used := h.used
  used_dual := h.used_dual
  avoids_node := h.avoids_node
  avoids_root := h.avoids_root
  dual_map q := by
    change (Function.update m.dual p e q).map ≠ s
    rw [Function.update_apply]
    split
    · exact he
    · exact h.dual_map q

theorem setNext (h : m.Rooted s d roots) (hq : place ≠ .node s) (hl : l.Avoids s d) :
    (m.setNext place l).Rooted s d roots := by
  cases place with
  | node p => exact h.setNode (fun hp => hq (congrArg _ hp)) hl
  | root r =>
    refine { h with avoids_root := fun q => ?_ }
    change (Function.update m.root r l q).Avoids s d
    rw [Function.update_apply]
    split
    · exact hl
    · exact h.avoids_root q

theorem setBacklink {isRoot : Bool} {prev pg : Word} (h : m.Rooted s d roots) (hp : p ≠ s) :
    (m.setBacklink p isRoot prev pg).Rooted s d roots :=
  h.setNode hp (h.avoids_node p hp)

/-- The link at any other place avoids the node. -/
theorem avoids (h : m.Rooted s d roots) (hq : place ≠ .node s) : (m.next place).Avoids s d := by
  cases place with
  | node p => exact h.avoids_node p fun hp => hq (congrArg _ hp)
  | root r => exact h.avoids_root r

theorem getMap_ne (h : m.Rooted s d roots) (hs : s ≠ 0) (hl : l.Avoids s d) : m.getMap l ≠ s := by
  rw [getMap]
  split
  · exact hs.symm
  · rename_i hmap
    have hl := hl (by simpa using hmap)
    split
    · exact h.dual_map _
    · rename_i hroot
      rwa [if_neg hroot] at hl

theorem createDual (h : m.Rooted s d roots) (ha : a ≠ s) {r : Word}
    (hrun : b.createDual a r m = some (p, m')) :
    m'.Rooted s d roots ∧ p ≠ d ∧ Grows m m' := by
  obtain ⟨⟨p, m₁⟩, halloc, hret⟩ := Option.bind_eq_some_iff.mp hrun
  cases hret
  obtain ⟨hfree, hne, rfl⟩ := allocBuffer_cases halloc
  have hp : p ≠ d := by
    rintro rfl
    cases hfree.symm.trans h.used_dual
  exact ⟨h.alloc.setDual hp ha, hp, grows_alloc⟩

theorem createRoots (h : m.Rooted s d roots) (hs : s ≠ 0)
    (hrun : b.createRoots size m = some (r, m')) :
    m'.Rooted s d roots ∧ Grows m m' := by
  obtain ⟨⟨r, m₁⟩, halloc, hret⟩ := Option.bind_eq_some_iff.mp hrun
  cases hret
  obtain ⟨hfree, hne, rfl⟩ := allocBuffer_cases halloc
  refine ⟨{ h.alloc with avoids_root := fun q => ?_ }, grows_alloc⟩
  dsimp only
  split
  · exact avoids_map hs.symm
  · exact h.avoids_root q

/-- The array below a place, created where there is none. -/
theorem below {fPgsize : Nat} (h : m.Rooted s d roots) (hs : s ≠ 0) (hq : place ≠ .node s)
    (hrun : b.below fPgsize place m = some (r, m')) : m'.Rooted s d roots ∧ Grows m m' := by
  rw [MdbBuffers.below] at hrun
  split at hrun
  · obtain ⟨⟨r, m₁⟩, hcreate, hset⟩ := Option.bind_eq_some_iff.mp hrun
    obtain ⟨h₁, hg₁⟩ := h.createRoots hs hcreate
    dsimp only at hset
    split at hset
    · cases hset
      exact ⟨h₁.setNext hq MdbBuffers.avoids_root, hg₁.trans grows_setNext⟩
    · obtain ⟨⟨d', m₂⟩, hdual, hset⟩ := Option.bind_eq_some_iff.mp hset
      cases hset
      obtain ⟨h₂, hd', hg₂⟩ := h₁.createDual (h.getMap_ne hs (h.avoids hq)) hdual
      exact ⟨h₂.setNext hq (avoids_dual hd'), (hg₁.trans hg₂).trans grows_setNext⟩
  · cases hrun
    exact ⟨h, .refl⟩

/-- Down below another place than the node. -/
theorem intoSubtree {fAddr : Word} {fPgsize k : Nat} (h : m.Rooted s d roots) (hs : s ≠ 0)
    (hq : place ≠ .node s) (hrun : b.intoSubtree fAddr fPgsize k place m = some (place', m')) :
    m'.Rooted s d roots ∧ place' ≠ .node s ∧ Grows m m' := by
  induction k generalizing fPgsize place m with
  | zero =>
    cases hrun
    exact ⟨h, hq, .refl⟩
  | succ k ih =>
    rw [MdbBuffers.intoSubtree] at hrun
    obtain ⟨⟨root, m₁⟩, hroot, hrest⟩ := Option.bind_eq_some_iff.mp hrun
    obtain ⟨h₁, hg₁⟩ := h.below hs hq hroot
    have hr : ∀ r, MdbPlace.root r ≠ .node s := nofun
    obtain ⟨hm', hq', hg⟩ := ih h₁ (hr _) hrest
    exact ⟨hm', hq', hg₁.trans hg⟩

theorem setNextMap (h : m.Rooted s d roots) (hq : place ≠ .node s) (ha : a ≠ s)
    (hrun : b.setNextMap a place m = some m') : m'.Rooted s d roots ∧ Grows m m' := by
  have hav := h.avoids hq
  unfold MdbBuffers.setNextMap at hrun
  dsimp only at hrun
  split at hrun
  · obtain ⟨⟨d', m₁⟩, hdual, hret⟩ := Option.bind_eq_some_iff.mp hrun
    cases hret
    obtain ⟨h₁, hd', hg₁⟩ := h.createDual ha hdual
    exact ⟨h₁.setNext hq (avoids_dual hd'), hg₁.trans grows_setNext⟩
  · split at hrun
    · rename_i hboth
      cases hrun
      obtain ⟨hroot, hmap⟩ := Bool.and_eq_true_iff.mp hboth
      have hd' := hav hmap
      rw [if_pos hroot] at hd'
      exact ⟨h.setDual hd' ha, .refl⟩
    · cases hrun
      exact ⟨h.setNext hq (avoids_map ha), grows_setNext⟩

/-- A new node is hooked below another place than the node. -/
theorem hook {tPg tSpace : Word} {depth : BitVec 8} (h : m.Rooted s d roots) (hs : s ≠ 0)
    (hq : place ≠ .node s) (ha : a ≠ s) (hrun : b.hook a tPg tSpace depth place m = some m') :
    m'.Rooted s d roots ∧ Grows m m' := by
  have hnmap := h.getMap_ne hs (h.avoids hq)
  obtain ⟨m₁, hlink, hret⟩ := Option.bind_eq_some_iff.mp hrun
  obtain ⟨h₁, hg₁⟩ := (h.setNode ha (avoids_map hnmap)).setNextMap hq ha hlink
  cases hret
  split
  · exact ⟨h₁, hg₁⟩
  · exact ⟨h₁.setBacklink hnmap, hg₁⟩

theorem roots_ne (h : m.Rooted s d roots) (hroots : roots ≠ 0) :
    m.getRoot (m.next (.node s)) ≠ 0 := by
  simpa [Mdb.next, h.node, getRoot, NextLink.dual, h.dual] using hroots

/-- `mdb_map` of a smaller page below the node, or of any page below another one. -/
theorem mdbMap {fMap fPg fAddr tPg tSpace : Word} {fHwpgsize tHwpgsize : Nat}
    (h : m.Rooted s d roots) (hs : s ≠ 0) (hroots : roots ≠ 0)
    (hsize : fMap = s → mdbPgsize tHwpgsize < mdbPgsize fHwpgsize)
    (hrun : b.mdbMap fMap fPg fHwpgsize fAddr tPg tHwpgsize tSpace false m = some (a, m')) :
    m'.Rooted s d roots ∧ m.used a = false ∧ m'.used a = true ∧ a ≠ s ∧ Grows m m' := by
  rw [MdbBuffers.mdbMap, if_neg (by decide)] at hrun
  split at hrun
  · cases hrun
  · obtain ⟨⟨newmap, m₁⟩, halloc, hrest⟩ := Option.bind_eq_some_iff.mp hrun
    obtain ⟨⟨q, m₂⟩, hinto, hrest⟩ := Option.bind_eq_some_iff.mp hrest
    obtain ⟨m₃, hhook, hret⟩ := Option.bind_eq_some_iff.mp hrest
    cases hret
    obtain ⟨hfree, -, rfl⟩ := allocBuffer_cases halloc
    have hne : a ≠ s := by
      rintro rfl
      cases hfree.symm.trans h.used
    have h₁ : Rooted s d roots { m with used := Function.update m.used a true } := h.alloc
    have hused₁ : Function.update m.used a true a = true := Function.update_self ..
    have h₂ : m₂.Rooted s d roots ∧ q ≠ .node s ∧
        Grows { m with used := Function.update m.used a true } m₂ := by
      by_cases hf : fMap = s
      · have hlt := hsize hf
        obtain ⟨n, hn⟩ := Nat.exists_eq_add_of_lt hlt
        have hsteps : mdbPgsize fHwpgsize - mdbPgsize tHwpgsize = n + 1 := by omega
        rw [hsteps, MdbBuffers.intoSubtree, hf] at hinto
        obtain ⟨⟨root, m₃⟩, hbelow, hinto⟩ := Option.bind_eq_some_iff.mp hinto
        rw [MdbBuffers.below, if_neg (h₁.roots_ne hroots)] at hbelow
        cases hbelow
        have hr : ∀ r, MdbPlace.root r ≠ .node s := nofun
        exact h₁.intoSubtree hs (hr _) hinto
      · exact h₁.intoSubtree hs (fun hp => hf (MdbPlace.node.inj hp)) hinto
    obtain ⟨h₂, hq, hg₂⟩ := h₂
    obtain ⟨h₃, hg₃⟩ := h₂.hook hs hq hne hhook
    exact ⟨h₃, hfree, hg₃ _ (hg₂ _ hused₁), hne, (grows_alloc.trans hg₂).trans hg₃⟩

/-- A grant takes another node than `s` over. -/
theorem mdbMap_grant {fMap fPg fAddr tPg tSpace : Word} {fHwpgsize tHwpgsize : Nat}
    (h : m.Rooted s d roots) (hf : fMap ≠ s)
    (hrun : b.mdbMap fMap fPg fHwpgsize fAddr tPg tHwpgsize tSpace true m = some (a, m')) :
    m'.Rooted s d roots ∧ a = fMap ∧ m'.used = m.used := by
  rw [MdbBuffers.mdbMap, if_pos rfl] at hrun
  cases hrun
  have h₁ : (m.setBacklink a (m.node a).isPrevRoot ((m.node a).prev ^^^ fPg) tPg).Rooted s d roots :=
    h.setBacklink hf
  exact ⟨h₁.setNode hf (h₁.avoids_node a hf), rfl, rfl⟩

end Mdb.Rooted

/-- No buffer is in use but the static node, and all memory is zero. -/
def Mdb.boot (s : Word) : Mdb := ⟨fun _ => .zero, fun _ => .zero, fun _ => ⟨0, 0⟩, (· == s)⟩

/-- `init_mdb` leaves sigma0's node as the owner of the address space. -/
theorem MdbBuffers.initMdb_rooted {b : MdbBuffers} {s : Word} {m : Mdb} (hs : s ≠ 0)
    (hrun : b.initMdb s (.boot s) = some m) : ∃ d roots, roots ≠ 0 ∧ m.Rooted s d roots := by
  obtain ⟨⟨roots, m₁⟩, hroots, hrest⟩ := Option.bind_eq_some_iff.mp hrun
  obtain ⟨⟨d, m₂⟩, hdual, hret⟩ := Option.bind_eq_some_iff.mp hrest
  obtain ⟨⟨roots', m₁'⟩, halloc, hret'⟩ := Option.bind_eq_some_iff.mp hroots
  obtain ⟨⟨d', m₂'⟩, halloc', hret''⟩ := Option.bind_eq_some_iff.mp hdual
  cases hret'
  cases hret''
  cases hret
  obtain ⟨-, hne, rfl⟩ := allocBuffer_cases halloc
  obtain ⟨hfree, -, rfl⟩ := allocBuffer_cases halloc'
  have hused : Function.update (Mdb.boot s).used roots true s = true :=
    grows_alloc _ (beq_self_eq_true s)
  refine ⟨d, roots, hne, ?_, ?_, ?_, ?_, ?_, ?_, ?_⟩
  · exact Function.update_self ..
  · exact Function.update_self ..
  · exact grows_alloc _ hused
  · exact Function.update_self ..
  · intro p hp
    change (Function.update (fun _ => MapNode.zero) s ⟨false, 0, 0, 0, .dual d⟩ p).next.Avoids s d
    rw [Function.update_of_ne hp]
    nofun
  · intro r
    change NextLink.Avoids s d (if _ then _ else _)
    split
    · exact avoids_map hs.symm
    · nofun
  · intro p
    change (Function.update (fun _ => DualNode.mk 0 0) d ⟨0, roots⟩ p).map ≠ s
    rw [Function.update_apply]
    split
    · exact hs.symm
    · exact hs.symm

/-! ## Mappings -/

/-- The address of an entry of the tables of the user area. -/
def PgPtr.vaddr (p : PgPtr) : Word := BitVec.ofNat 64 p.pageAddress

namespace PageTable

variable {v : Word} {size : Nat}

theorem vaddr_entryPtr (hv : v.toNat < 2 ^ 41) (hsize : size ≤ 7) :
    (entryPtr v size).vaddr = v &&& ~~~pageMask size := by
  have hshift := (pageShift_bounds hsize).2
  have hle : v.toNat / 2 ^ pageShift size * 2 ^ pageShift size < 2 ^ 64 :=
    Nat.lt_of_le_of_lt (Nat.div_mul_le_self _ _) v.isLt
  apply BitVec.eq_of_toNat_eq
  rw [pageMask_eq hsize, Mask.toNat_and_not_low (by omega), PgPtr.vaddr, BitVec.toNat_ofNat,
    pageAddress_entryPtr hsize, Nat.mod_eq_of_lt hv, Nat.mod_eq_of_lt hle]

end PageTable

namespace MapState

/-- The entry is a mapping. -/
def Mapped (s : MapState) (sp : Word) (p : PgPtr) : Prop := ((s.table sp).get p).isValid = true

/-- The node of the mapping in an entry. -/
def mapnode (s : MapState) (sp : Word) (p : PgPtr) : Word := (s.table sp).getLink p ^^^ p.vaddr

/-- Every mapping has a node in use, which is not `s`, and no other mapping has it. -/
structure Owned (s : Word) (st : MapState) : Prop where
  used : ∀ {sp p}, st.Mapped sp p → st.mdb.used (st.mapnode sp p) = true
  ne : ∀ {sp p}, st.Mapped sp p → st.mapnode sp p ≠ s
  inj : ∀ {sp p sp' p'}, st.Mapped sp p → st.Mapped sp' p' → st.mapnode sp p = st.mapnode sp' p' →
    sp = sp' ∧ p = p'

variable {s : Word} {st st' : MapState} {sp : Word} {p : PgPtr} {node : Word}

/-- Mappings disappear, but the rest stays. -/
theorem Owned.mono (h : st.Owned s)
    (hmapped : ∀ {sp p}, st'.Mapped sp p → st.Mapped sp p ∧ st'.mapnode sp p = st.mapnode sp p)
    (hused : ∀ {sp p}, st'.Mapped sp p → st'.mdb.used (st.mapnode sp p) = true) : st'.Owned s where
  used hm := (hmapped hm).2 ▸ hused hm
  ne hm := (hmapped hm).2 ▸ h.ne (hmapped hm).1
  inj hm hm' heq := by
    rw [(hmapped hm).2, (hmapped hm').2] at heq
    exact h.inj (hmapped hm).1 (hmapped hm').1 heq

/-- A mapping is added whose node no mapping that stays has. -/
theorem Owned.add (sp : Word) (p : PgPtr) (h : st.Owned s) (hne : node ≠ s)
    (hused : st'.mdb.used node = true)
    (hgrows : ∀ a, st.mdb.used a = true → st'.mdb.used a = true)
    (hold : ∀ {sp' p'}, st'.Mapped sp' p' →
      (sp' = sp ∧ p' = p ∧ st'.mapnode sp' p' = node) ∨
      (st.Mapped sp' p' ∧ st'.mapnode sp' p' = st.mapnode sp' p' ∧ st.mapnode sp' p' ≠ node)) :
    st'.Owned s where
  used hm := by
    obtain ⟨-, -, heq⟩ | ⟨hm, heq, -⟩ := hold hm
    · rw [heq, hused]
    · rw [heq, hgrows _ (h.used hm)]
  ne hm := by
    obtain ⟨-, -, heq⟩ | ⟨hm, heq, -⟩ := hold hm
    · rwa [heq]
    · rw [heq]
      exact h.ne hm
  inj hm hm' heq := by
    obtain ⟨rfl, rfl, hs⟩ | ⟨hm, hs, hn⟩ := hold hm
    · obtain ⟨rfl, rfl, -⟩ | ⟨hm', hs', hn'⟩ := hold hm'
      · exact ⟨rfl, rfl⟩
      · rw [hs, hs'] at heq
        exact absurd heq.symm hn'
    · obtain ⟨rfl, rfl, hs'⟩ | ⟨hm', hs', hn'⟩ := hold hm'
      · rw [hs, hs'] at heq
        exact absurd heq hn
      · rw [hs, hs'] at heq
        exact h.inj hm hm' heq

end MapState

/-! ## Operations -/

/-- What `map_fpage` does: to an entry, on its way to one, and to mappings that are in the way. -/
inductive MapEvent
  | insert (a : InsertArgs)
  | makeSubtree (sp : Word) (p : PgPtr) (size : Nat) (ptab : BitVec 56)
  | updateRights (sp : Word) (p : PgPtr) (rwx : Word)
  | overmap

/-! ### Entries -/

namespace PageTable

variable {pt pt' : PageTable} {p q : PgPtr} {e : Pgent} {w : Word} {size : Nat}

theorem getLink_setLink_of_ne (h : q ≠ p) : (pt.setLink p w).getLink q = pt.getLink q := by
  change Function.update pt.link p.table (Function.update (pt.link p.table) p.idx w) q.table q.idx =
    pt.getLink q
  rcases eq_or_ne q.table p.table with htable | htable
  · have hidx : q.idx ≠ p.idx := by
      intro hidx
      apply h
      cases p
      cases q
      simp_all
    rw [htable, Function.update_self, Function.update_of_ne hidx, getLink, htable]
  · rw [Function.update_of_ne htable, getLink]

/-- No entry becomes a mapping, and the mappings keep their nodes. -/
def Shrinks (pt pt' : PageTable) : Prop :=
  ∀ q, (pt'.get q).isValid = true → (pt.get q).isValid = true ∧ pt'.getLink q = pt.getLink q

theorem shrinks_set (h : e.isValid = true → (pt.get p).isValid = true) :
    pt.Shrinks (pt.set p e) := by
  intro q hq
  rcases eq_or_ne q p with rfl | hne
  · rw [PgOp.get_set_self] at hq
    exact ⟨h hq, rfl⟩
  · rw [PgOp.get_set_of_ne hne] at hq
    exact ⟨hq, rfl⟩

theorem Shrinks.zeroTable (h : pt.Shrinks pt') (t : Table) : pt.Shrinks (pt'.zeroTable t) := by
  intro q hq
  rcases eq_or_ne q.table t with rfl | hne
  · simp [PageTable.get, PageTable.zeroTable, Pgent.zero] at hq
  · rw [PgOp.get_zeroTable_of_ne hne] at hq
    obtain ⟨hv, hl⟩ := h q hq
    refine ⟨hv, ?_⟩
    rw [← hl]
    have hlink : Function.update pt'.link t (fun _ => 0) q.table = pt'.link q.table :=
      Function.update_of_ne hne _ _
    exact congrFun hlink q.idx

theorem shrinks_makeSubtree {ptab : BitVec 56} : pt.Shrinks (pt.makeSubtree p size ptab) := by
  have hset : ∀ e : Pgent, e.isValid = false → pt.Shrinks (pt.set p e) :=
    fun e he => shrinks_set fun h => absurd h (he ▸ Bool.false_ne_true)
  rw [makeSubtree]
  dsimp only
  split
  · exact (hset _ rfl).zeroTable _
  · exact hset _ rfl

theorem shrinks_updateRights {rwx : Word} : pt.Shrinks (pt.updateRights p rwx) := by
  rw [updateRights]
  split
  · exact shrinks_set id
  · exact fun _ h => ⟨h, rfl⟩

/-- The entry that is cleared is no mapping any more. -/
theorem shrinks_clear :
    pt.Shrinks (pt.clear p size false) ∧ ((pt.clear p size false).get p).isValid = false := by
  have hclear : ∃ e, e.isValid = false ∧ pt.clear p size false = (pt.set p e).setLink p 0 := by
    rw [clear, if_neg (by decide)]
    split
    · exact ⟨.zero, rfl, rfl⟩
    · exact ⟨_, rfl, rfl⟩
  obtain ⟨e, he, heq⟩ := hclear
  have hself : ((pt.clear p size false).get p).isValid = false := by
    rw [heq, PgOp.get_setLink, PgOp.get_set_self, he]
  refine ⟨fun q hq => ?_, hself⟩
  rcases eq_or_ne q p with rfl | hne
  · cases hself.symm.trans hq
  · rw [heq, PgOp.get_setLink, PgOp.get_set_of_ne hne] at hq
    rw [heq, getLink_setLink_of_ne hne]
    exact ⟨hq, rfl⟩

end PageTable

/-- Mappings of one space disappear. -/
theorem MapState.Owned.shrinks {s sp : Word} {st : MapState} {pt : PageTable} (h : st.Owned s)
    (hpt : (st.table sp).Shrinks pt) :
    MapState.Owned s { st with table := Function.update st.table sp pt } := by
  have hmapped : ∀ {sp' p}, ((Function.update st.table sp pt sp').get p).isValid = true →
      st.Mapped sp' p ∧
        (Function.update st.table sp pt sp').getLink p = (st.table sp').getLink p := by
    intro sp' p hm
    rcases eq_or_ne sp' sp with rfl | hne
    · rw [Function.update_self] at hm ⊢
      exact hpt p hm
    · rw [Function.update_of_ne hne] at hm ⊢
      exact ⟨hm, rfl⟩
  refine h.mono (fun hm => ⟨(hmapped hm).1, ?_⟩) fun hm => h.used (hmapped hm).1
  exact congrArg (· ^^^ _) (hmapped hm).2

namespace Mapper

variable (k : Mapper)

/-- `map_fpage` is at an entry of the sender that is a mapping, unless the sender is sigma0, and at
an entry of the receiver that is none. -/
structure Enabled (a : InsertArgs) (s : MapState) : Prop where
  tpg : a.tpg = PageTable.entryPtr a.tAddr a.tSize
  tUser : Space.isUserArea a.tAddr = true
  tSize : a.tSize ≤ PgSize.sizeMax
  vacant : ((s.table a.tSpace).get a.tpg).valid a.tSize = false
  fpg : a.this ≠ k.sigma0Space → a.fpg = PageTable.entryPtr a.fAddr a.fSize
  fUser : a.this ≠ k.sigma0Space → Space.isUserArea a.fAddr = true
  fSize : a.this ≠ k.sigma0Space → a.tSize ≤ a.fSize ∧ a.fSize ≤ PgSize.sizeMax
  mapping : a.this ≠ k.sigma0Space → ((s.table a.this).get a.fpg).valid a.fSize = true ∧
    ((s.table a.this).get a.fpg).subtree a.fSize = false

/-- `mdb_flush` on the mappings that are in the way: some mappings are gone with their nodes, the
others keep theirs. Links are moved along, to nodes that a link led to before. -/
structure Overmaps (s t : MapState) : Prop where
  mapped : ∀ {sp p}, t.Mapped sp p → s.Mapped sp p ∧ t.mapnode sp p = s.mapnode sp p
  used : ∀ {sp p}, t.Mapped sp p → t.mdb.used (s.mapnode sp p) = true
  links : ∀ {d roots}, s.mdb.Rooted k.sigma0Mapnode d roots → t.mdb.Rooted k.sigma0Mapnode d roots

inductive Step : MapState → MapEvent → MapState → Prop
  | insert {a s t} (h : k.Enabled a s) (hrun : k.insertMapping a s = some t) : Step s (.insert a) t
  | makeSubtree {sp p size ptab s} : Step s (.makeSubtree sp p size ptab)
    { s with table := Function.update s.table sp ((s.table sp).makeSubtree p size ptab) }
  | updateRights {sp p rwx s} : Step s (.updateRights sp p rwx)
    { s with table := Function.update s.table sp ((s.table sp).updateRights p rwx) }
  | overmap {s t} (h : k.Overmaps s t) : Step s .overmap t

/-- After `init_mdb`, before anything is mapped. -/
def Init (roots : Word) (s : MapState) : Prop :=
  k.buffers.initMdb k.sigma0Mapnode (.boot k.sigma0Mapnode) = some s.mdb ∧
    roots = s.mdb.getRoot (s.mdb.next (.node k.sigma0Mapnode)) ∧ ∀ sp p, ¬s.Mapped sp p

/-- The address of the receiver is that of a page. -/
def Aligned (a : InsertArgs) : Prop := a.tAddr &&& ~~~pageMask a.tSize = a.tAddr

instance (a : InsertArgs) : Decidable (Aligned a) := inferInstanceAs (Decidable (_ = _))

/-- The operation is no grant from sigma0, and is for a page of the receiver. -/
def Proper (_ : MapState) (e : MapEvent) : Prop :=
  ∀ a, e = .insert a → Aligned a ∧ (a.this = k.sigma0Space → a.grant = false)

/-- The node of sigma0 is the root, and every mapping has a node of its own. -/
structure Sigma0Root (roots : Word) (s : MapState) : Prop where
  depth : (s.mdb.node k.sigma0Mapnode).depth = 0
  space : (s.mdb.node k.sigma0Mapnode).space = 0
  backlink : (s.mdb.node k.sigma0Mapnode).isPrevRoot = false ∧ (s.mdb.node k.sigma0Mapnode).prev = 0
  roots : s.mdb.getRoot (s.mdb.next (.node k.sigma0Mapnode)) = roots
  owned : s.Owned k.sigma0Mapnode

/-! ### Preservation -/

variable {k} {a : InsertArgs} {s t : MapState} {sp : Word} {p : PgPtr} {paddr newmap roots d : Word}
  {read write : Bool} {attrib : BitVec 3} {table : Word → PageTable}

theorem getLink_enter :
    (enter a paddr read write attrib newmap table a.tSpace).getLink a.tpg = newmap ^^^ a.tAddr := by
  rw [enter]
  simp [PageTable.getLink, PageTable.setEntry, PageTable.set, PageTable.setLink]

theorem enter_of_ne (h : ¬(sp = a.tSpace ∧ p = a.tpg)) :
    (enter a paddr read write attrib newmap table sp).get p = (table sp).get p ∧
      (enter a paddr read write attrib newmap table sp).getLink p = (table sp).getLink p := by
  rw [enter, Function.update_apply]
  split
  · rename_i hsp
    have hp : p ≠ a.tpg := fun hp => h ⟨hsp, hp⟩
    subst hsp
    rw [PgOp.get_setLink, PageTable.setEntry, PgOp.get_set_of_ne hp]
    exact ⟨rfl, PageTable.getLink_setLink_of_ne hp⟩
  · exact ⟨rfl, rfl⟩

theorem toNat_lt_of_isUserArea {v : Word} (h : Space.isUserArea v = true) : v.toNat < 2 ^ 41 := by
  simp only [Space.isUserArea, decide_eq_true_eq, BitVec.le_def] at h
  exact Nat.lt_of_le_of_lt h (by decide)

/-- The node that the sender's entry has, where it is a mapping. -/
theorem Enabled.mapnode (h : k.Enabled a s) (hthis : a.this ≠ k.sigma0Space) :
    (s.table a.this).getLink a.fpg ^^^ (a.fAddr &&& ~~~pageMask a.fSize) =
      s.mapnode a.this a.fpg := by
  have hlt := toNat_lt_of_isUserArea (h.fUser hthis)
  rw [MapState.mapnode, h.fpg hthis, PageTable.vaddr_entryPtr hlt (h.fSize hthis).2]

theorem Enabled.mapped (h : k.Enabled a s) (hthis : a.this ≠ k.sigma0Space) :
    s.Mapped a.this a.fpg := by
  obtain ⟨hvalid, hsub⟩ := h.mapping hthis
  rw [Pgent.valid, Bool.or_eq_true, Bool.and_eq_true] at hvalid
  obtain hvalid | ⟨htree, hlt⟩ := hvalid
  · exact hvalid
  · rw [Pgent.subtree] at hsub
    split at hsub
    · cases htree.symm.trans hsub
    · cases hlt.symm.trans hsub

theorem Enabled.vaddr (h : k.Enabled a s) (ha : Aligned a) : a.tpg.vaddr = a.tAddr := by
  rw [h.tpg, PageTable.vaddr_entryPtr (toNat_lt_of_isUserArea h.tUser) h.tSize, ha]

theorem Enabled.not_mapped (h : k.Enabled a s) : ¬s.Mapped a.tSpace a.tpg := by
  intro hm
  have hvacant := h.vacant
  rw [Pgent.valid, hm, Bool.true_or] at hvacant
  cases hvacant

/-- The entry of the receiver is filled in; then mappings with the new node disappear. -/
theorem Enabled.owned {mdb : Mdb} {table table' : Word → PageTable} {s0 : Word} (h : k.Enabled a s)
    (ha : Aligned a) (ho : s.Owned s0) (hne : newmap ≠ s0) (hused : mdb.used newmap = true)
    (hgrows : MdbBuffers.Grows s.mdb mdb)
    (hself : (table a.tSpace).getLink a.tpg = newmap ^^^ a.tAddr)
    (hother : ∀ {sp p}, ¬(sp = a.tSpace ∧ p = a.tpg) → (table sp).get p = (s.table sp).get p ∧
      (table sp).getLink p = (s.table sp).getLink p)
    (htable : ∀ sp, (table sp).Shrinks (table' sp))
    (hmoved : ∀ sp p, s.Mapped sp p → ((table' sp).get p).isValid = true →
      s.mapnode sp p ≠ newmap) : MapState.Owned s0 ⟨mdb, table'⟩ := by
  refine ho.add a.tSpace a.tpg hne hused hgrows fun {sp p} hm => ?_
  obtain ⟨hvalid, hlink⟩ := htable sp p hm
  by_cases hsp : sp = a.tSpace ∧ p = a.tpg
  · obtain ⟨rfl, rfl⟩ := hsp
    refine .inl ⟨rfl, rfl, ?_⟩
    rw [MapState.mapnode, hlink, hself, h.vaddr ha, BitVec.xor_assoc, BitVec.xor_self,
      BitVec.xor_zero]
  · obtain ⟨hget, hlink'⟩ := hother hsp
    rw [hget] at hvalid
    exact .inr ⟨hvalid, congrArg (· ^^^ _) (hlink.trans hlink'), hmoved sp p hvalid hm⟩

/-- The entry of one space is cleared. -/
theorem shrinks_update_clear {this : Word} {size : Nat} (sp : Word) :
    (table sp).Shrinks (Function.update table this ((table this).clear p size false) sp) := by
  rcases eq_or_ne sp this with rfl | hne
  · rw [Function.update_self]
    exact PageTable.shrinks_clear.1
  · rw [Function.update_of_ne hne]
    exact fun _ hv => ⟨hv, rfl⟩

theorem mdbPgsize_eq {size : Nat} (h : size ≤ 8) : mdbPgsize size = size := by
  interval_cases size
  all_goals decide

/-- An insertion for a page that is no grant from sigma0. -/
theorem Enabled.insert (h : k.Enabled a s) (ha : Aligned a) (hroots : roots ≠ 0)
    (hr : s.mdb.Rooted k.sigma0Mapnode d roots) (ho : s.Owned k.sigma0Mapnode)
    (hok : a.this = k.sigma0Space → a.grant = false) (hrun : k.insertMapping a s = some t) :
    t.mdb.Rooted k.sigma0Mapnode d roots ∧ t.Owned k.sigma0Mapnode := by
  have hs := k.sigma0Mapnode_ne
  have hfresh : ∀ {newmap}, s.mdb.used newmap = false → ∀ sp p, s.Mapped sp p →
      s.mapnode sp p ≠ newmap := by
    rintro _ hfree sp p hm rfl
    cases hfree.symm.trans (ho.used hm)
  have hrefl : ∀ table : Word → PageTable, ∀ sp, (table sp).Shrinks (table sp) :=
    fun _ _ _ hv => ⟨hv, rfl⟩
  unfold insertMapping at hrun
  dsimp only at hrun
  split at hrun
  · rename_i hthis
    obtain ⟨⟨newmap, mdb⟩, hmap, hret⟩ := Option.bind_eq_some_iff.mp hrun
    cases hret
    rw [hok hthis] at hmap
    have hsize : mdbPgsize a.tSize < mdbPgsize (PgSize.sizeMax + 1) := by
      rw [mdbPgsize_eq (Nat.le_succ_of_le h.tSize), mdbPgsize_eq (by decide)]
      exact Nat.lt_succ_of_le h.tSize
    obtain ⟨hr', hfree, hused, hne, hg⟩ := hr.mdbMap hs hroots (fun _ => hsize) hmap
    exact ⟨hr', h.owned ha ho hne hused hg getLink_enter enter_of_ne (hrefl _)
      fun sp p hm _ => hfresh hfree sp p hm⟩
  · rename_i hthis
    obtain ⟨⟨newmap, mdb⟩, hmap, hret⟩ := Option.bind_eq_some_iff.mp hrun
    cases hret
    rw [h.mapnode hthis] at hmap
    have hmapped := h.mapped hthis
    have hnode := ho.ne hmapped
    cases hgrant : a.grant with
    | false =>
      rw [hgrant] at hmap
      obtain ⟨hr', hfree, hused, hne, hg⟩ := hr.mdbMap hs hroots (fun heq => absurd heq hnode) hmap
      exact ⟨hr', h.owned ha ho hne hused hg getLink_enter enter_of_ne (hrefl _)
      fun sp p hm _ => hfresh hfree sp p hm⟩
    | true =>
      rw [hgrant] at hmap
      obtain ⟨hr', rfl, hused⟩ := hr.mdbMap_grant hnode hmap
      refine ⟨hr', h.owned ha ho hnode (hused ▸ ho.used hmapped) (fun _ h => hused ▸ h) getLink_enter
        enter_of_ne shrinks_update_clear fun sp p hm hv heq => ?_⟩
      obtain ⟨rfl, rfl⟩ := ho.inj hm hmapped heq
      rw [if_pos rfl, Function.update_self, PageTable.shrinks_clear.2] at hv
      cases hv

/-! ### Runs -/

/-- One operation. -/
theorem Step.preserves {e : MapEvent} (hroots : roots ≠ 0)
    (h : s.mdb.Rooted k.sigma0Mapnode d roots ∧ s.Owned k.sigma0Mapnode)
    (hok : k.Proper s e) (hstep : k.Step s e t) :
    t.mdb.Rooted k.sigma0Mapnode d roots ∧ t.Owned k.sigma0Mapnode := by
  obtain ⟨hr, ho⟩ := h
  cases hstep with
  | insert hen hrun => exact hen.insert (hok _ rfl).1 hroots hr ho (hok _ rfl).2 hrun
  | makeSubtree => exact ⟨hr, ho.shrinks PageTable.shrinks_makeSubtree⟩
  | updateRights => exact ⟨hr, ho.shrinks PageTable.shrinks_updateRights⟩
  | overmap hover => exact ⟨hover.links hr, ho.mono hover.mapped hover.used⟩

/-- A mapper that takes the next of a few buffers. -/
def sampleMapper : Mapper where
  buffers := {
    alloc := fun m _ => [0x1000, 0x2000, 0x3000, 0x4000, 0x5000, 0x6000, 0x7000, 0x8000, 0x9000,
      0xa000].find? fun a => !m.used a
    unused := fun h => by simpa using List.find?_some h
    ne_zero := fun h => by
      have hmem := List.mem_of_find?_eq_some h
      rintro rfl
      revert hmem
      decide }
  sigma0Space := 0x100000
  sigma0Mapnode := 0x800
  sigma0Mapnode_ne := by decide
  pgentAddr sp p := sp + BitVec.ofNat 64 (8 * p.idx)

theorem isSome_initMdb : (sampleMapper.buffers.initMdb 0x800 (.boot 0x800)).isSome = true := by
  decide

def sampleState : MapState :=
  ⟨(sampleMapper.buffers.initMdb 0x800 (.boot 0x800)).get isSome_initMdb, fun _ => .zero⟩

/-- A page of 4 KB that sigma0 maps or grants. -/
def sampleInsert (grant : Bool) : InsertArgs where
  this := 0x100000
  fpg := ⟨.root, 0⟩
  fSize := 0
  fAddr := 0x200000
  fOff := 0
  tSpace := 0x102000
  tpg := PageTable.entryPtr 0x400000 0
  tSize := 0
  tAddr := 0x400000
  sndFp := ⟨0x2000c7⟩
  grant := grant

theorem init_sampleState : sampleMapper.Init 0x1000 sampleState :=
  ⟨(Option.some_get isSome_initMdb).symm, by decide, fun _ _ => nofun⟩

theorem enabled_sampleInsert (grant : Bool) :
    sampleMapper.Enabled (sampleInsert grant) sampleState where
  tpg := rfl
  tUser := by decide +revert
  tSize := by decide +revert
  vacant := by decide +revert
  fpg h := absurd rfl h
  fUser h := absurd rfl h
  fSize h := absurd rfl h
  mapping h := absurd rfl h

/-- What can be evaluated after the insertion holds of a state after it. -/
theorem exists_sampleInsert (grant : Bool) (P : MapState → Bool)
    (h : (sampleMapper.insertMapping (sampleInsert grant) sampleState).any P = true) :
    ∃ s, sampleMapper.Step sampleState (.insert (sampleInsert grant)) s ∧ P s = true := by
  obtain ⟨s, hs, hP⟩ := (Option.any_eq_true P _).mp h
  exact ⟨s, .insert (enabled_sampleInsert grant) hs, hP⟩

end Mapper

end L4Thread
