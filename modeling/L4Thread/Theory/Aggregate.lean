import L4Thread.Irpy.Aggregate
import L4Thread.Theory.Merge

/-!
# What struct values keep

The emitted calls have no indices, so that a struct value has one field: `insert_value` makes a new
struct whose first field is the value, and `extract_value` reads the first field.
-/

namespace L4Thread.Irpy

open Smt

variable {P : Lib} {c d e : Ctx}

/-! ## Fresh names -/

def Ctx.idx (c : Ctx) (name : String) : Nat := (c.freshIdx.lookup name).getD 0

/-- The names that `fresh_name` makes. -/
def numbered (name : String) (k : Nat) : String := name ++ "." ++ toString k

theorem freshName_bind {β : Type} (name : String) (f : String → Py β) :
    (freshName name >>= f) c = f (numbered name (c.idx name))
      { c with freshIdx := c.freshIdx.insert name (c.idx name + 1) } := rfl

theorem numbered_inj {name : String} {k m : Nat} (h : numbered name k = numbered name m) :
    k = m := by
  have hrepr := congrArg String.toList ((String.append_right_inj _).mp h)
  rw [Nat.toString_eq_repr, Nat.toString_eq_repr, Nat.toList_repr, Nat.toList_repr] at hrepr
  have hvalue := congrArg (fun ds => Nat.ofDigitChars 10 ds 0) hrepr
  simpa only [Nat.ofDigitChars_ten_toDigits] using hvalue

theorem numbered_ne_self (name : String) (k : Nat) : numbered name k ≠ name := by
  intro h
  have hlen := congrArg String.length h
  rw [numbered, String.length_append, String.length_append] at hlen
  have hdot : ".".length = 1 := rfl
  omega

/-- The two names for struct values do not get in each other's way. -/
theorem numbered_ne {k m : Nat} : numbered "poison" k ≠ numbered "insert_value" m := by
  intro h
  have hlist := congrArg String.toList h
  rw [numbered, numbered, String.toList_append, String.toList_append, String.toList_append,
    String.toList_append] at hlist
  exact absurd (List.cons.inj hlist).1 (by decide)

theorem numbered_poison_ne {k : Nat} : numbered "poison" k ≠ "insert_value" := by
  intro h
  have hlist := congrArg String.toList h
  rw [numbered, String.toList_append, String.toList_append] at hlist
  exact absurd (List.cons.inj hlist).1 (by decide)

theorem numbered_insert_ne {k : Nat} : numbered "insert_value" k ≠ "poison" := by
  intro h
  have hlist := congrArg String.toList h
  rw [numbered, String.toList_append, String.toList_append] at hlist
  exact absurd (List.cons.inj hlist).1 (by decide)

/-! ## Fresh references -/

/-- Only names that begin with `name` were made. -/
def NamesOnly (name : String) (c d : Ctx) : Prop :=
  ∃ idx : Dict String Nat, d = { c with freshIdx := idx } ∧
    ∀ key, key ≠ name → idx.lookup key = c.freshIdx.lookup key

theorem NamesOnly.refl (name : String) (c : Ctx) : NamesOnly name c c :=
  ⟨c.freshIdx, rfl, fun _ _ => rfl⟩

theorem NamesOnly.trans {name : String} (h : NamesOnly name c d) (h' : NamesOnly name d e) :
    NamesOnly name c e := by
  obtain ⟨idx, rfl, hidx⟩ := h
  obtain ⟨idx', rfl, hidx'⟩ := h'
  exact ⟨idx', rfl, fun key hkey => (hidx' key hkey).trans (hidx key hkey)⟩

theorem namesOnly_freshName {name n : String} (h : freshName name c = .ok n d) :
    NamesOnly name c d := by
  cases h
  exact ⟨_, rfl, fun key hkey => AList.lookup_insert_ne hkey⟩

theorem namesOnly_leaf {name : String} {w depth : Nat} {tup : List Nat}
    {r : Dict (List Nat) Obj} (h : freshRef.leaf name w tup depth c = .ok r d) :
    NamesOnly name c d := by
  obtain ⟨n, e, hn, h⟩ := Py.bind_eq_ok.mp h
  cases h
  exact namesOnly_freshName hn

mutual

theorem namesOnly_freshRef {name : String} : ∀ (t : Ty) {tup : List Nat} {depth : Nat} {c d : Ctx}
    {r : Dict (List Nat) Obj}, freshRef name t tup depth c = .ok r d → NamesOnly name c d
  | .struct _ ts _, _, _, _, _, _, h => namesOnly_fields ts h
  | .int _, _, _, _, _, _, h => namesOnly_leaf h
  | .pointer t, _, _, _, _, _, h => by
    rw [freshRef] at h
    split at h
    · exact namesOnly_leaf h
    · exact namesOnly_freshRef t h
  | .array _ t, _, _, _, _, _, h => namesOnly_freshRef t h
  | .void, _, _, _, _, _, h => nomatch h
  | .function _, _, _, _, _, _, h => nomatch h

theorem namesOnly_fields {name : String} : ∀ (ts : List Ty) {tup : List Nat} {depth i : Nat}
    {c d : Ctx} {r : Dict (List Nat) Obj},
    freshRef.fields name tup depth i ts c = .ok r d → NamesOnly name c d
  | [], _, _, _, _, _, _, h => by
    cases h
    exact .refl _ _
  | t :: ts, _, _, _, _, _, _, h => by
    obtain ⟨_, _, ht, h⟩ := Py.bind_eq_ok.mp h
    obtain ⟨_, _, hts, h⟩ := Py.bind_eq_ok.mp h
    cases h
    exact (namesOnly_freshRef t ht).trans (namesOnly_fields ts hts)

end

/-- The symbols of integer fields. -/
theorem exists_fields (name : String) {ts : List Ty} (h : ∀ t ∈ ts, t.isInt = true)
    (tup : List Nat) (i : Nat) (c : Ctx) :
    ∃ r d, freshRef.fields name tup 0 i ts c = .ok r d := by
  induction ts generalizing i c with
  | nil => exact ⟨_, _, rfl⟩
  | cons t ts ih =>
    cases t with
    | int w =>
      obtain ⟨r, d, hrest⟩ := ih (fun t ht => h t (List.mem_cons_of_mem _ ht)) (i + 1)
        { c with freshIdx := c.freshIdx.insert name (c.idx name + 1) }
      refine ⟨(∅ : Dict (List Nat) Obj).insert (tup ++ [i])
        (.decl (numbered name (c.idx name)) 0 (.bv w)) ∪ r, d, ?_⟩
      exact Py.bind_eq_ok.mpr ⟨_, _, rfl, Py.bind_eq_ok.mpr ⟨r, d, hrest, rfl⟩⟩
    | _ => cases h _ (List.mem_cons_self ..)

/-- The symbol of the first field. -/
theorem lookup_first {name n : String} {w : Nat} {ts : List Ty} {sz : Option Nat}
    {r : Dict (List Nat) Obj} (h : freshRef name (.struct n (.int w :: ts) sz) [] 0 c = .ok r d) :
    r.lookup [0] = some (.decl (numbered name (c.idx name)) 0 (.bv w)) := by
  obtain ⟨q, f, hleaf, h⟩ := Py.bind_eq_ok.mp h
  cases hleaf
  obtain ⟨_, _, -, h⟩ := Py.bind_eq_ok.mp h
  cases h
  have hmem : [0] ∈ (∅ : Dict (List Nat) Obj).insert [0]
      (.decl (numbered name (c.idx name)) 0 (.bv w)) := by
    rw [AList.mem_insert]
    exact .inl rfl
  exact (AList.lookup_union_left hmem).trans (AList.lookup_insert _)

theorem Ctx.toScope_addAssumption (c : Ctx) (t : Term .bool) :
    (c.addAssumption t).toScope = c.toScope := by
  rw [addAssumption, solverAdd]
  split <;> rfl

theorem Ctx.freshIdx_addAssumption (c : Ctx) (t : Term .bool) :
    (c.addAssumption t).freshIdx = c.freshIdx := by
  rw [addAssumption, solverAdd]
  split <;> rfl

/-- What `fresh_ptr` does. -/
structure IsFresh (name : String) (t : Ty) (c d : Ctx) (r : Dict (List Nat) Obj) : Prop where
  unused : c.references.lookup name = none
  references : d.references = c.references.insert name r
  locals : d.locals = c.locals
  freshIdx : ∀ key, key ≠ name → d.freshIdx.lookup key = c.freshIdx.lookup key
  symbols : ∃ e, freshRef name t [] 0 c = .ok r e

theorem initRef_spec {ref : Reference} {u : Unit} (h : initRef ref c = .ok u d) :
    ∃ r, IsFresh ref.name ref.type c d r := by
  obtain ⟨r, e, hr, h⟩ := Py.bind_eq_ok.mp h
  obtain ⟨idx, rfl, hidx⟩ := namesOnly_freshRef _ hr
  rw [Py.get_bind] at h
  split at h
  · cases h
  · next hnone =>
    cases h
    exact ⟨r, Option.not_isSome_iff_eq_none.mp hnone, rfl, rfl, hidx, _, hr⟩

theorem freshPtr_spec {name : String} {t : Ty} {p : Pointer} (h : freshPtr P name t c = .ok p d) :
    p = .base ⟨name, t⟩ [] t ∧ ∃ r, IsFresh name t c d r := by
  obtain ⟨_, e, he, h⟩ := Py.bind_eq_ok.mp h
  obtain ⟨r, hr⟩ := initRef_spec he
  cases h
  refine ⟨rfl, r, hr.unused, ?_, ?_, fun key hkey => ?_, hr.symbols⟩
  · rw [Ctx.toScope_addAssumption]
    exact hr.references
  · rw [Ctx.toScope_addAssumption]
    exact hr.locals
  · rw [Ctx.freshIdx_addAssumption]
    exact hr.freshIdx key hkey

theorem exists_freshPtr {name n : String} {ts : List Ty} {sz : Option Nat}
    (hint : ∀ t ∈ ts, t.isInt = true) (hnone : c.references.lookup name = none) :
    ∃ p d, freshPtr P name (.struct n ts sz) c = .ok p d := by
  obtain ⟨r, e, hr⟩ := exists_fields name hint [] 0 c
  obtain ⟨idx, rfl, -⟩ := namesOnly_fields ts hr
  have hinit : ∃ d, initRef ⟨name, .struct n ts sz⟩ c = .ok () d := by
    rw [initRef, Py.bind_apply]
    dsimp only
    rw [freshRef, hr]
    dsimp only
    rw [Py.get_bind, if_neg (by rw [hnone]; exact Bool.false_ne_true)]
    exact ⟨_, rfl⟩
  obtain ⟨d, hd⟩ := hinit
  exact ⟨_, _, Py.bind_eq_ok.mpr ⟨(), d, hd, rfl⟩⟩

/-! ## The first field -/

section

variable (hP : P.Folds)

include hP

theorem simplify_zero : P.simplify (.lit 0 : Term (.bv 64)) = .lit 0 := by
  rw [hP.simplify_eq rfl default, Term.eval_lit]

theorem canonicalPath_first : canonicalPath P [[.bvVal 64 0]] = .ok [⟨.bv 64, .lit 0⟩] := by
  have hsum : P.simplify (.bin .add (.lit 0) (.lit 0) : Term (.bv 64)) = .lit 0 :=
    hP.simplify_eq rfl default
  change Except.ok [(⟨.bv 64, P.simplify (.bin .add (.lit 0) (.lit 0))⟩ : Value)] = _
  rw [hsum]

theorem numeral_zero : numeral P ⟨.bv 64, .lit 0⟩ = some 0 := by
  rw [numeral]
  dsimp only
  rw [simplify_zero hP]
  rfl

theorem buildFieldTupleAndPath_nil (n : String) (sz : Option Nat) :
    buildFieldTupleAndPath P (.struct n [] sz) [⟨.bv 64, .lit 0⟩] = throw .index := by
  rw [buildFieldTupleAndPath, numeral_zero hP]
  rfl

theorem buildFieldTupleAndPath_first (n : String) (t : Ty) (ts : List Ty) (sz : Option Nat) :
    buildFieldTupleAndPath P (.struct n (t :: ts) sz) [⟨.bv 64, .lit 0⟩] = pure ([0], []) := by
  rw [buildFieldTupleAndPath, numeral_zero hP]
  dsimp only [List.getElem?_cons_zero]
  rw [buildFieldTupleAndPath]
  rfl

theorem If_true (u v : Value) : If P (.lit true) (.expr u) (.expr v) = .ok (.expr u) := by
  have hlit : P.simplify (.lit true : Term .bool) = .lit true := by
    rw [hP.simplify_eq rfl default, Term.eval_lit]
  rw [If, ifValue, hlit, hlit]
  rfl

end

/-! ## The two methods -/

/-- A pointer to a struct whose first field is `u`. -/
def HasFirst (P : Lib) (c : Ctx) (o : Obj) (u : Value) : Prop :=
  ∃ ref ty n t ts sz d f, o = .ptr (.base ref [] ty) ∧ ref.type = .struct n (t :: ts) sz ∧
    c.references.lookup ref.name = some d ∧ d.lookup [0] = some f ∧ f.apply P [] = .ok (.expr u)

/-- References are only added. -/
structure KeepsReferences (c d : Ctx) : Prop where
  references : ∀ name r, c.references.lookup name = some r → d.references.lookup name = some r
  locals : d.locals = c.locals

/-- Names that are to be made yet. -/
def Unused (c : Ctx) (name : String) : Prop :=
  ∀ k, c.idx name ≤ k → c.references.lookup (numbered name k) = none

/-- The names for struct values are to be made yet. -/
structure Supply (c : Ctx) : Prop where
  insert : Unused c "insert_value"
  poison : Unused c "poison"

theorem KeepsReferences.refl (c : Ctx) : KeepsReferences c c := ⟨fun _ _ h => h, rfl⟩

theorem KeepsReferences.trans (h : KeepsReferences c d) (h' : KeepsReferences d e) : KeepsReferences c e :=
  ⟨fun name r hr => h'.references name r (h.references name r hr), h'.locals.trans h.locals⟩

theorem HasFirst.keeps {o : Obj} {u : Value} (h : HasFirst P c o u) (hcd : KeepsReferences c d) :
    HasFirst P d o u := by
  obtain ⟨ref, ty, n, t, ts, sz, r, f, ho, htype, hr, hf, hu⟩ := h
  exact ⟨ref, ty, n, t, ts, sz, r, f, ho, htype, hcd.references _ _ hr, hf, hu⟩

/-- A new pointer adds an assumption and nothing else. -/
theorem exists_make (P : Lib) (ref : Reference) (geps : Geps) (t : Ty) (c : Ctx) :
    ∃ d, Pointer.make P ref geps t c = .ok (.base ref geps t) d ∧ d.toScope = c.toScope ∧
      d.freshIdx = c.freshIdx :=
  ⟨_, rfl, Ctx.toScope_addAssumption .., Ctx.freshIdx_addAssumption ..⟩

theorem fieldFunction_eq {ref : Reference} {fields : List Nat} {r : Dict (List Nat) Obj} {f : Obj}
    (hr : c.references.lookup ref.name = some r) (hf : r.lookup fields = some f) :
    fieldFunction ref fields c = .ok f c := by
  rw [fieldFunction, Py.get_bind, hr]
  dsimp only
  rw [hf]
  rfl

theorem getelementptr_first (ref : Reference) (ty t : Ty) :
    (Pointer.base ref [] ty).getelementptr P [.bvVal 64 0] t =
      Pointer.make P ref [[.bvVal 64 0]] t := if_neg (List.cons_ne_nil _ _)

theorem extractValue_spec (hP : P.Folds) {o : Obj} {u : Value} (t : Ty) (h : HasFirst P c o u) :
    ∃ d, extractValue P t (.obj o) c = .ok (.expr u) d ∧ d.references = c.references ∧
      d.locals = c.locals ∧ d.freshIdx = c.freshIdx := by
  obtain ⟨ref, ty, n, t', ts, sz, r, f, rfl, htype, hr, hf, hu⟩ := h
  obtain ⟨e, hmake, hscope, hidx⟩ := exists_make P ref [[.bvVal 64 0]] t c
  have hread : (Pointer.base ref [[.bvVal 64 0]] t).read P = (do
      access ref
      ofExcept ((← fieldFunction ref [0]).apply P [])) := by
    change (ofExcept (canonicalPath P [[.bvVal 64 0]]) >>= fun path => ref.read P path) = _
    rw [canonicalPath_first hP, Py.ofExcept_ok_bind, Reference.read, htype,
      buildFieldTupleAndPath_first hP]
    rfl
  have hfield : fieldFunction ref [0] { e with accessed := e.accessed.insert ref.name } =
      .ok f { e with accessed := e.accessed.insert ref.name } := by
    refine fieldFunction_eq ?_ hf
    rw [← hr, ← hscope]
  refine ⟨{ e with accessed := e.accessed.insert ref.name }, ?_, ?_, ?_, hidx⟩
  · rw [extractValue, getelementptr_first, Py.bind_apply, hmake]
    dsimp only
    rw [hread]
    change ((fieldFunction ref [0] >>= fun g => ofExcept (g.apply P []))
      { e with accessed := e.accessed.insert ref.name }) = _
    rw [Py.bind_apply, hfield]
    dsimp only
    rw [hu]
    rfl
  · rw [← hscope]
  · rw [← hscope]

theorem IsFresh.keepsReferences {name : String} {t : Ty} {r : Dict (List Nat) Obj}
    (h : IsFresh name t c d r) : KeepsReferences c d where
  references m s hs := by
    have hne : m ≠ name := by
      rintro rfl
      rw [h.unused] at hs
      cases hs
    rw [h.references, AList.lookup_insert_ne hne, hs]
  locals := h.locals

/-- The names of one kind when a name of one of the kinds was made. -/
theorem Unused.fresh {base name : String} {t : Ty} {r : Dict (List Nat) Obj}
    (hc : Unused c base) (hbase : base ≠ numbered name (c.idx name))
    (hne : base = name ∨ ∀ k, numbered base k ≠ numbered name (c.idx name))
    (h : IsFresh (numbered name (c.idx name)) t
      { c with freshIdx := c.freshIdx.insert name (c.idx name + 1) } d r) : Unused d base := by
  intro k hk
  have hidx : d.idx base = ((c.freshIdx.insert name (c.idx name + 1)).lookup base).getD 0 :=
    congrArg (fun o => o.getD 0) (h.freshIdx base hbase)
  rw [h.references]
  rcases hne with rfl | hne
  · rw [AList.lookup_insert, Option.getD_some] at hidx
    have hk' : numbered base k ≠ numbered base (c.idx base) := fun heq => by
      have := numbered_inj heq
      omega
    rw [AList.lookup_insert_ne hk']
    exact hc k (by omega)
  · rw [AList.lookup_insert_ne (hne k)]
    by_cases hsame : base = name
    · exact absurd (congrArg (numbered · (c.idx name)) hsame) (hne _)
    · rw [AList.lookup_insert_ne hsame] at hidx
      exact hc k (by rwa [hidx] at hk)

/-- A struct value with a name of one of the two kinds. -/
theorem Supply.fresh {name : String} {t : Ty} {r : Dict (List Nat) Obj} (hs : Supply c)
    (hname : name = "insert_value" ∨ name = "poison")
    (h : IsFresh (numbered name (c.idx name)) t
      { c with freshIdx := c.freshIdx.insert name (c.idx name + 1) } d r) : Supply d := by
  rcases hname with rfl | rfl
  · exact ⟨hs.insert.fresh (numbered_ne_self _ _).symm (.inl rfl) h,
      hs.poison.fresh numbered_insert_ne.symm (.inr fun _ => numbered_ne) h⟩
  · exact ⟨hs.insert.fresh numbered_poison_ne.symm (.inr fun _ => numbered_ne.symm) h,
      hs.poison.fresh (numbered_ne_self _ _).symm (.inl rfl) h⟩

theorem apply_update (hP : P.Folds) (f : String) (w : Nat) (u : Value) :
    (Obj.update (.decl f 0 (.bv w)) [] (.expr u)).apply P [] = .ok (.expr u) :=
  If_true hP u ⟨.bv w, .app f .nil (.bv w)⟩

/-- A write to the first field. -/
theorem write_first (hP : P.Folds) {ref : Reference} {n : String} {t : Ty} {ts : List Ty}
    {sz : Option Nat} {r : Dict (List Nat) Obj} {f value : Obj} (ty : Ty)
    (htype : ref.type = .struct n (t :: ts) sz) (hr : c.references.lookup ref.name = some r)
    (hf : r.lookup [0] = some f) :
    (Pointer.base ref [[.bvVal 64 0]] ty).write P value c =
      .ok () { c with
        accessed := c.accessed.insert ref.name
        references := c.references.insert ref.name (r.insert [0] (.update f [] value)) } := by
  change (ofExcept (canonicalPath P [[.bvVal 64 0]]) >>= fun path => ref.write P path value) c = _
  rw [canonicalPath_first hP, Py.ofExcept_ok_bind, Reference.write, htype,
    buildFieldTupleAndPath_first hP]
  change (fieldFunction ref [0] >>= _) c = _
  rw [Py.bind_apply, fieldFunction_eq hr hf]
  change EStateM.Result.ok () { c with
    accessed := c.accessed.insert ref.name
    references := c.references.insert ref.name
      (((c.references.lookup ref.name).getD ∅).insert [0] (.update f [] value)) } = _
  rw [hr]
  rfl

/-- Another function for a reference that is there. -/
theorem Supply.write {ref : Reference} {r r' : Dict (List Nat) Obj} {accessed : List String}
    (hs : Supply c) (hr : c.references.lookup ref.name = some r) :
    Supply { c with accessed := accessed, references := c.references.insert ref.name r' } := by
  have hunused : ∀ base, Unused c base →
      Unused { c with accessed := accessed, references := c.references.insert ref.name r' } base := by
    intro base hb k hk
    have hnone := hb k hk
    have hne : numbered base k ≠ ref.name := by
      intro heq
      rw [heq, hr] at hnone
      cases hnone
    exact (AList.lookup_insert_ne hne).trans hnone
  exact ⟨hunused _ hs.insert, hunused _ hs.poison⟩

theorem Supply.scope (hs : Supply c) (hscope : d.toScope = c.toScope)
    (hidx : d.freshIdx = c.freshIdx) : Supply d := by
  have hunused : ∀ base, Unused c base → Unused d base := by
    intro base hb k hk
    rw [hscope]
    apply hb k
    rwa [Ctx.idx, hidx] at hk
  exact ⟨hunused _ hs.insert, hunused _ hs.poison⟩

/-- A new struct whose first field is the value. -/
theorem insertValue_spec (hP : P.Folds) (hs : Supply c) {n : String} {w v : Nat} {ts : List Ty}
    {sz : Option Nat} (hint : ∀ t ∈ ts, t.isInt = true) (u : Value) :
    ∃ o d, insertValue P (.struct n (.int w :: ts) sz) (.expr u) (.int v) c = .ok o d ∧
      HasFirst P d o u ∧ KeepsReferences c d ∧ Supply d := by
  have hall : ∀ t ∈ Ty.int w :: ts, t.isInt = true := List.forall_mem_cons.mpr ⟨rfl, hint⟩
  obtain ⟨p, d, hd⟩ : ∃ p d, freshPtr P (numbered "insert_value" (c.idx "insert_value"))
      (.struct n (.int w :: ts) sz) { c with
        freshIdx := c.freshIdx.insert "insert_value" (c.idx "insert_value" + 1) } = .ok p d :=
    exists_freshPtr hall (hs.insert _ (Nat.le_refl _))
  obtain ⟨rfl, r, hr⟩ := freshPtr_spec hd
  obtain ⟨_, hsymbols⟩ := hr.symbols
  have hfirst := lookup_first hsymbols
  have hsd := hs.fresh (.inl rfl) hr
  have hkeeps := hr.keepsReferences
  have hnew : d.references.lookup (numbered "insert_value" (c.idx "insert_value")) = some r := by
    rw [hr.references]
    exact AList.lookup_insert _
  obtain ⟨e, hmake, hscope, hidx⟩ := exists_make P
    ⟨numbered "insert_value" (c.idx "insert_value"), .struct n (.int w :: ts) sz⟩
    [[.bvVal 64 0]] (.struct n (.int w :: ts) sz) d
  have hlookup : e.references.lookup (numbered "insert_value" (c.idx "insert_value")) = some r := by
    rw [hscope, hnew]
  have hrun : insertValue P (.struct n (.int w :: ts) sz) (.expr u) (.int v) c = (do
      let field ← Pointer.make P
        ⟨numbered "insert_value" (c.idx "insert_value"), .struct n (.int w :: ts) sz⟩
        [[.bvVal 64 0]] (.struct n (.int w :: ts) sz)
      field.write P (.expr u)
      pure (.ptr (.base
        ⟨numbered "insert_value" (c.idx "insert_value"), .struct n (.int w :: ts) sz⟩ []
        (.struct n (.int w :: ts) sz))) : Py Obj) d := by
    have hcheck : ((Ty.struct n (.int w :: ts) sz).isStruct && (Ty.int v).isInt) = true := rfl
    rw [insertValue, Py.check_bind, if_pos hcheck]
    rw [freshName_bind, Py.bind_apply, hd]
    dsimp only
    rw [getelementptr_first]
    rfl
  rw [hrun, Py.bind_apply, hmake]
  dsimp only
  rw [Py.bind_apply, write_first hP _ rfl hlookup hfirst]
  refine ⟨_, _, rfl, ?_, ?_, ?_⟩
  · exact ⟨_, _, n, .int w, ts, sz, _, _, rfl, rfl, AList.lookup_insert _, AList.lookup_insert _,
      apply_update hP _ _ u⟩
  · refine ⟨fun m s hm => ?_, ?_⟩
    · have hne : m ≠ numbered "insert_value" (c.idx "insert_value") := by
        rintro rfl
        rw [hs.insert _ (Nat.le_refl _)] at hm
        cases hm
      refine (AList.lookup_insert_ne hne).trans ?_
      rw [hscope]
      exact hkeeps.references m s hm
    · rw [← hkeeps.locals, ← hscope]
  · exact (hsd.scope hscope hidx).write hlookup

/-! ## Sequences -/

theorem stackGet_eq_ok {key : String} {o : Obj} :
    stackGet key c = .ok o d ↔ c.stack.lookup key = some o ∧ c = d := by
  rw [stackGet, Py.get_bind]
  cases h : c.stack.lookup key with
  | none => exact ⟨nofun, fun h => nomatch h.1⟩
  | some o' =>
    constructor
    · intro h
      cases h
      exact ⟨rfl, rfl⟩
    · rintro ⟨h, rfl⟩
      cases h
      rfl

/-- The context with another value on the stack. -/
def Ctx.setStack (c : Ctx) (key : String) (o : Obj) : Ctx :=
  { c with locals := c.locals.dropLast ++ [c.stack.insert key o] }

theorem Ctx.stack_setStack (c : Ctx) (key : String) (o : Obj) :
    (c.setStack key o).stack = c.stack.insert key o := by
  rw [stack, setStack, List.getLast?_concat]
  rfl

theorem exec_eq_ok {s : PyCall} {u : Unit} : s.exec P c = .ok u d ↔
    ∃ t args e o f, s.type = .ok t ∧ evalArgs P s.args c = .ok args e ∧
      PyCall.call P s.method t args e = .ok o f ∧ f.setStack s.dst o = d := by
  constructor
  · intro h
    obtain ⟨t, _, htype, h⟩ := Py.bind_eq_ok.mp h
    obtain ⟨ht, rfl⟩ := ofExcept_eq_ok.mp htype
    obtain ⟨args, e, hargs, h⟩ := Py.bind_eq_ok.mp h
    obtain ⟨o, f, ho, h⟩ := Py.bind_eq_ok.mp h
    cases h
    exact ⟨t, args, e, o, f, ht, hargs, ho, rfl⟩
  · rintro ⟨t, args, e, o, f, ht, hargs, ho, rfl⟩
    exact Py.bind_eq_ok.mpr ⟨t, c, ofExcept_eq_ok.mpr ⟨ht, rfl⟩,
      Py.bind_eq_ok.mpr ⟨args, e, hargs, Py.bind_eq_ok.mpr ⟨o, f, ho, rfl⟩⟩⟩

theorem evalArgs_cons_eq_ok {x : PyExpr Constant} {type : PyType}
    {xs : List (PyExpr Constant × PyType)} {args : List (PyArg × Ty)} :
    evalArgs P ((x, type) :: xs) c = .ok args d ↔
      ∃ a e t rest, x.evalArg P c = .ok a e ∧ type = .ok t ∧ evalArgs P xs e = .ok rest d ∧
        args = (a, t) :: rest := by
  constructor
  · intro h
    obtain ⟨a, e, ha, h⟩ := Py.bind_eq_ok.mp h
    obtain ⟨t, _, htype, h⟩ := Py.bind_eq_ok.mp h
    obtain ⟨ht, rfl⟩ := ofExcept_eq_ok.mp htype
    obtain ⟨rest, f, hrest, h⟩ := Py.bind_eq_ok.mp h
    cases h
    exact ⟨a, e, t, rest, ha, ht, hrest, rfl⟩
  · rintro ⟨a, e, t, rest, ha, ht, hrest, rfl⟩
    exact Py.bind_eq_ok.mpr ⟨a, e, ha, Py.bind_eq_ok.mpr ⟨t, e, ofExcept_eq_ok.mpr ⟨ht, rfl⟩,
      Py.bind_eq_ok.mpr ⟨rest, d, hrest, rfl⟩⟩⟩

theorem evalArgs_nil_eq_ok {args : List (PyArg × Ty)} :
    evalArgs P [] c = .ok args d ↔ args = [] ∧ c = d := by
  constructor
  · intro h
    cases h
    exact ⟨rfl, rfl⟩
  · rintro ⟨rfl, rfl⟩
    rfl

section

variable {dst : String} {T W : PyType} {agg val : LlvmValue Constant} {is : List Nat}

theorem exec_insertvalue_eq_ok {u : Unit} :
    (PyInstVisitor.genPyCallFromInstruction (.insertvalue dst T agg val W is)).exec P c = .ok u d ↔
      ∃ t w a b e f o g, T = .ok t ∧ W = .ok w ∧ (PyInstVisitor.get agg).evalArg P c = .ok a e ∧
        (PyInstVisitor.get val).evalArg P e = .ok b f ∧
        PyCall.call P .insertValue t [(a, t), (b, w)] f = .ok o g ∧
        g.setStack (PyInstVisitor.name dst) o = d := by
  rw [exec_eq_ok]
  constructor
  · rintro ⟨t, args, f, o, g, ht, hargs, ho, hd⟩
    obtain ⟨a, e, t', rest, ha, ht', hrest, rfl⟩ := evalArgs_cons_eq_ok.mp hargs
    obtain ⟨b, f', w, rest', hb, hw, hnil, rfl⟩ := evalArgs_cons_eq_ok.mp hrest
    obtain ⟨rfl, rfl⟩ := evalArgs_nil_eq_ok.mp hnil
    cases ht.symm.trans ht'
    exact ⟨t, w, a, b, e, f', o, g, ht, hw, ha, hb, ho, hd⟩
  · rintro ⟨t, w, a, b, e, f, o, g, ht, hw, ha, hb, ho, hd⟩
    exact ⟨t, _, f, o, g, ht, evalArgs_cons_eq_ok.mpr ⟨a, e, t, _, ha, ht,
      evalArgs_cons_eq_ok.mpr ⟨b, f, w, [], hb, hw, rfl, rfl⟩, rfl⟩, ho, hd⟩

theorem exec_extractvalue_eq_ok {u : Unit} :
    (PyInstVisitor.genPyCallFromInstruction (.extractvalue dst W agg T is)).exec P c = .ok u d ↔
      ∃ t w a e o f, T = .ok t ∧ W = .ok w ∧ (PyInstVisitor.get agg).evalArg P c = .ok a e ∧
        extractValue P w a e = .ok o f ∧ f.setStack (PyInstVisitor.name dst) o = d := by
  rw [exec_eq_ok]
  constructor
  · rintro ⟨w, args, e, o, f, hw, hargs, ho, hd⟩
    obtain ⟨a, e', t, rest, ha, ht, hnil, rfl⟩ := evalArgs_cons_eq_ok.mp hargs
    obtain ⟨rfl, rfl⟩ := evalArgs_nil_eq_ok.mp hnil
    exact ⟨t, w, a, e', o, f, ht, hw, ha, ho, hd⟩
  · rintro ⟨t, w, a, e, o, f, ht, hw, ha, ho, hd⟩
    exact ⟨w, _, e, o, f, hw, evalArgs_cons_eq_ok.mpr ⟨a, e, t, [], ha, ht, rfl, rfl⟩, ho, hd⟩

end

/-! ## Typed sequences -/

/-- The names of structs and of integers on the stack. -/
inductive Kind
  | struct
  | int

/-- What `parse_type` makes of a struct of integers, if it accepts it. -/
def IntStruct (T : PyType) : Prop :=
  ∀ t, T = .ok t → ∃ n ts sz, t = .struct n ts sz ∧ ∀ t ∈ ts, t.isInt = true

variable {Γ : String → Option Kind}

def AggregateOperand (Γ : String → Option Kind) (T : PyType) : LlvmValue Constant → Prop
  | .instruction n | .argument n => Γ (PyInstVisitor.name n) = some .struct
  | .constant (.undef T') => T' = T
  | .constant .aggregateZero | .constant .struct => True
  | .constant (.int ..) => False

def IntOperand (Γ : String → Option Kind) : LlvmValue Constant → Prop
  | .instruction n | .argument n => Γ (PyInstVisitor.name n) = some .int
  | .constant (.int ..) => True
  | .constant (.undef T) => ∃ w, T = .ok (.int w)
  | _ => False

inductive WellTyped (Γ : String → Option Kind) : AggregateInst → Prop
  | insertvalue {dst : String} {T W : PyType} {agg val : LlvmValue Constant} {is : List Nat}
    (hdst : Γ (PyInstVisitor.name dst) = some .struct) (hT : IntStruct T)
    (hagg : AggregateOperand Γ T agg) (hval : IntOperand Γ val) :
    WellTyped Γ (.insertvalue dst T agg val W is)
  | extractvalue {dst : String} {T W : PyType} {agg : LlvmValue Constant} {is : List Nat}
    (hdst : Γ (PyInstVisitor.name dst) = some .int) (hT : IntStruct T)
    (hagg : AggregateOperand Γ T agg) : WellTyped Γ (.extractvalue dst W agg T is)

/-- The stack has what the names say. -/
structure Typed (P : Lib) (Γ : String → Option Kind) (c : Ctx) : Prop where
  struct : ∀ key o, Γ key = some .struct → c.stack.lookup key = some o → ∃ u, HasFirst P c o u
  int : ∀ key o, Γ key = some .int → c.stack.lookup key = some o → ∃ u, o = .expr u

theorem KeepsReferences.stack (h : KeepsReferences c d) : d.stack = c.stack := by
  rw [Ctx.stack, Ctx.stack, h.locals]

theorem Typed.keeps (ht : Typed P Γ c) (h : KeepsReferences c d) : Typed P Γ d where
  struct key o hkey ho := by
    rw [h.stack] at ho
    obtain ⟨u, hu⟩ := ht.struct key o hkey ho
    exact ⟨u, hu.keeps h⟩
  int key o hkey ho := by
    rw [h.stack] at ho
    exact ht.int key o hkey ho

theorem HasFirst.setStack {o o' : Obj} {u : Value} {key : String} (h : HasFirst P c o u) :
    HasFirst P (c.setStack key o') o u := h

theorem Typed.setStack_struct (ht : Typed P Γ c) {key : String} {o : Obj} {u : Value}
    (hkey : Γ key = some .struct) (ho : HasFirst P c o u) : Typed P Γ (c.setStack key o) where
  struct key' o' hkey' ho' := by
    rw [Ctx.stack_setStack] at ho'
    by_cases heq : key' = key
    · rw [heq, AList.lookup_insert] at ho'
      cases ho'
      exact ⟨u, ho.setStack⟩
    · rw [AList.lookup_insert_ne heq] at ho'
      exact ht.struct key' o' hkey' ho'
  int key' o' hkey' ho' := by
    rw [Ctx.stack_setStack] at ho'
    have heq : key' ≠ key := by
      rintro rfl
      rw [hkey] at hkey'
      cases hkey'
    rw [AList.lookup_insert_ne heq] at ho'
    exact ht.int key' o' hkey' ho'

theorem Typed.setStack_int (ht : Typed P Γ c) {key : String} {u : Value}
    (hkey : Γ key = some .int) : Typed P Γ (c.setStack key (.expr u)) where
  struct key' o' hkey' ho' := by
    rw [Ctx.stack_setStack] at ho'
    have heq : key' ≠ key := by
      rintro rfl
      rw [hkey] at hkey'
      cases hkey'
    rw [AList.lookup_insert_ne heq] at ho'
    exact ht.struct key' o' hkey' ho'
  int key' o' hkey' ho' := by
    rw [Ctx.stack_setStack] at ho'
    by_cases heq : key' = key
    · rw [heq, AList.lookup_insert] at ho'
      cases ho'
      exact ⟨u, rfl⟩
    · rw [AList.lookup_insert_ne heq] at ho'
      exact ht.int key' o' hkey' ho'

theorem Supply.setStack (hs : Supply c) (key : String) (o : Obj) : Supply (c.setStack key o) :=
  ⟨hs.insert, hs.poison⟩

/-! ## One instruction -/

/-- A struct without fields has no first one to write to. -/
theorem insertValue_empty (hP : P.Folds) {n : String} {sz : Option Nat} {target o : Obj} {w : Ty} :
    insertValue P (.struct n [] sz) target w c ≠ .ok o d := by
  intro h
  obtain ⟨_, c₁, -, h⟩ := Py.bind_eq_ok.mp h
  obtain ⟨name, c₂, -, h⟩ := Py.bind_eq_ok.mp h
  obtain ⟨p, c₃, hp, h⟩ := Py.bind_eq_ok.mp h
  obtain ⟨rfl, -⟩ := freshPtr_spec hp
  rw [getelementptr_first] at h
  obtain ⟨q, c₄, hq, h⟩ := Py.bind_eq_ok.mp h
  cases hq
  obtain ⟨_, c₅, hwrite, -⟩ := Py.bind_eq_ok.mp h
  change (ofExcept (canonicalPath P [[.bvVal 64 0]]) >>= fun path =>
    Reference.write P ⟨name, .struct n [] sz⟩ path target) _ = _ at hwrite
  rw [canonicalPath_first hP, Py.ofExcept_ok_bind, Reference.write,
    buildFieldTupleAndPath_nil hP] at hwrite
  cases hwrite

theorem insertValue_ok (hP : P.Folds) (hs : Supply c) {t w : Ty} {u : Value} {o : Obj}
    (hint : IntStruct (.ok t)) (h : insertValue P t (.expr u) w c = .ok o d) :
    (∃ n t' ts sz, t = .struct n (t' :: ts) sz) ∧ HasFirst P d o u ∧ KeepsReferences c d ∧
      Supply d := by
  obtain ⟨n, ts, sz, rfl, hall⟩ := hint t rfl
  have hcheck := h
  rw [insertValue, Py.check_bind] at hcheck
  split at hcheck
  · next htypes =>
    rw [Bool.and_eq_true] at htypes
    cases w with
    | int v =>
      cases ts with
      | nil => exact absurd h (insertValue_empty hP)
      | cons t' ts =>
        cases t' with
        | int w =>
          obtain ⟨o', d', hspec, hfirst, hkeeps, hsupply⟩ := insertValue_spec hP hs
            (List.forall_mem_cons.mp hall).2 u
          cases hspec.symm.trans h
          exact ⟨⟨_, _, _, _, rfl⟩, hfirst, hkeeps, hsupply⟩
        | _ => cases hall _ (List.mem_cons_self ..)
    | _ => cases htypes.2
  · cases hcheck

theorem evalArg_instruction {key : String} {a : PyArg} :
    (PyExpr.stack key).evalArg P c = .ok a d ↔
      ∃ o, c.stack.lookup key = some o ∧ a = .obj o ∧ c = d := by
  constructor
  · intro h
    obtain ⟨o, e, hget, h⟩ := Py.bind_eq_ok.mp h
    obtain ⟨ho, rfl⟩ := stackGet_eq_ok.mp hget
    cases h
    exact ⟨o, ho, rfl, rfl⟩
  · rintro ⟨o, ho, rfl, rfl⟩
    exact Py.bind_eq_ok.mpr ⟨o, c, stackGet_eq_ok.mpr ⟨ho, rfl⟩, rfl⟩

/-- `undef` of an aggregate makes a new one. -/
theorem undef_keeps (hs : Supply c) {t : Ty} {o : Obj} (h : undef P t c = .ok o d) :
    KeepsReferences c d ∧ Supply d := by
  have hptr : ∀ {p : Pointer} {e : Ctx},
      (freshName "poison" >>= fun n => freshPtr P n t) c = .ok p e →
        KeepsReferences c e ∧ Supply e := by
    intro p e hp
    rw [freshName_bind] at hp
    obtain ⟨-, r, hr⟩ := freshPtr_spec hp
    have hkeeps := hr.keepsReferences
    exact ⟨⟨hkeeps.references, hkeeps.locals⟩, hs.fresh (.inr rfl) hr⟩
  cases t with
  | int w =>
    obtain ⟨v, e, hv, h⟩ := Py.bind_eq_ok.mp h
    cases h
    rw [getPoison, freshName_bind] at hv
    have hd : d = { c with freshIdx := c.freshIdx.insert "poison" (c.idx "poison" + 1) } := by
      split at hv <;> (cases hv; rfl)
    subst hd
    refine ⟨⟨fun _ _ hr => hr, rfl⟩, fun k hk => ?_, fun k hk => ?_⟩
    · refine hs.insert k ?_
      rwa [Ctx.idx, AList.lookup_insert_ne (by decide)] at hk
    · refine hs.poison k ?_
      rw [Ctx.idx, AList.lookup_insert, Option.getD_some] at hk
      omega
  | struct | pointer =>
    obtain ⟨n, e, hn, h⟩ := Py.bind_eq_ok.mp h
    obtain ⟨p, f, hp, h⟩ := Py.bind_eq_ok.mp h
    cases h
    exact hptr (Py.bind_eq_ok.mpr ⟨n, e, hn, hp⟩)
  | _ => cases h

theorem evalArg_keeps (hs : Supply c) {x : LlvmValue Constant} {a : PyArg}
    (h : (PyInstVisitor.get x).evalArg P c = .ok a d) : KeepsReferences c d ∧ Supply d := by
  cases x with
  | instruction n | argument n =>
    obtain ⟨o, -, rfl, rfl⟩ := evalArg_instruction.mp h
    exact ⟨.refl c, hs⟩
  | constant k =>
    cases k with
    | int | aggregateZero =>
      cases h
      exact ⟨.refl c, hs⟩
    | undef T =>
      obtain ⟨t, e, htype, h⟩ := Py.bind_eq_ok.mp h
      obtain ⟨-, rfl⟩ := ofExcept_eq_ok.mp htype
      obtain ⟨o, f, ho, h⟩ := Py.bind_eq_ok.mp h
      cases h
      exact undef_keeps hs ho
    | struct => cases h

/-- The symbol for the first field of the next undefined struct. -/
def undefFirst (c : Ctx) (w : Nat) : Value :=
  ⟨.bv w, .app (numbered (numbered "poison" (c.idx "poison"))
    (c.idx (numbered "poison" (c.idx "poison")))) .nil (.bv w)⟩

theorem undef_first {n : String} {w : Nat} {ts : List Ty} {sz : Option Nat} {o : Obj}
    (h : undef P (.struct n (.int w :: ts) sz) c = .ok o d) : HasFirst P d o (undefFirst c w) := by
  obtain ⟨name, e, hname, h⟩ := Py.bind_eq_ok.mp h
  cases hname
  obtain ⟨p, f, hp, h⟩ := Py.bind_eq_ok.mp h
  cases h
  obtain ⟨rfl, r, hr⟩ := freshPtr_spec hp
  obtain ⟨_, hsymbols⟩ := hr.symbols
  refine ⟨_, _, n, .int w, ts, sz, r, _, rfl, rfl, ?_, lookup_first hsymbols, ?_⟩
  · rw [hr.references]
    exact AList.lookup_insert _
  · have hidx : Ctx.idx { c with freshIdx := c.freshIdx.insert "poison" (c.idx "poison" + 1) }
        (numbered "poison" (c.idx "poison")) = c.idx (numbered "poison" (c.idx "poison")) := by
      rw [Ctx.idx, AList.lookup_insert_ne (numbered_ne_self _ _)]
      rfl
    rw [undefFirst, ← hidx]
    rfl

theorem intOperand_expr (ht : Typed P Γ c) {x : LlvmValue Constant} (hx : IntOperand Γ x)
    {a : PyArg} (h : (PyInstVisitor.get x).evalArg P c = .ok a d) : ∃ u, a = .obj (.expr u) := by
  cases x with
  | instruction n | argument n =>
    obtain ⟨o, ho, rfl, -⟩ := evalArg_instruction.mp h
    obtain ⟨u, rfl⟩ := ht.int _ o hx ho
    exact ⟨u, rfl⟩
  | constant k =>
    cases k with
    | int value width =>
      cases h
      exact ⟨_, rfl⟩
    | undef T =>
      obtain ⟨w, rfl⟩ := hx
      obtain ⟨t, e, htype, h⟩ := Py.bind_eq_ok.mp h
      cases htype
      obtain ⟨o, f, ho, h⟩ := Py.bind_eq_ok.mp h
      cases h
      obtain ⟨v, g, -, ho⟩ := Py.bind_eq_ok.mp ho
      cases ho
      exact ⟨v, rfl⟩
    | _ => cases hx

/-- The first field of an operand. -/
def FirstField (P : Lib) (c : Ctx) : LlvmValue Constant → Value → Prop
  | .instruction n, u | .argument n, u =>
    ∃ o, c.stack.lookup (PyInstVisitor.name n) = some o ∧ HasFirst P c o u
  | .constant (.undef T), u =>
    ∃ n w ts sz, T = .ok (.struct n (.int w :: ts) sz) ∧ u = undefFirst c w
  | _, _ => False

/-- A struct without fields has no first one to read. -/
theorem extractValue_empty (hP : P.Folds) {name n : String} {sz : Option Nat} {ty w : Ty} {o : Obj} :
    extractValue P w (.obj (.ptr (.base ⟨name, .struct n [] sz⟩ [] ty))) c ≠ .ok o d := by
  intro h
  rw [extractValue, getelementptr_first] at h
  obtain ⟨q, e, hq, h⟩ := Py.bind_eq_ok.mp h
  cases hq
  change (ofExcept (canonicalPath P [[.bvVal 64 0]]) >>= fun path =>
    Reference.read P ⟨name, .struct n [] sz⟩ path) _ = _ at h
  rw [canonicalPath_first hP, Py.ofExcept_ok_bind, Reference.read,
    buildFieldTupleAndPath_nil hP] at h
  cases h

section

variable {T : PyType} {x : LlvmValue Constant} {a : PyArg} {w : Ty} {o : Obj} {u : Value}

theorem exists_evalArg (hs : Supply c) (hT : IntStruct T) (hx : AggregateOperand Γ T x)
    (h : FirstField P c x u) :
    ∃ o d, (PyInstVisitor.get x).evalArg P c = .ok (.obj o) d ∧ HasFirst P d o u := by
  cases x with
  | instruction n | argument n =>
    obtain ⟨o, ho, hu⟩ := h
    exact ⟨o, c, evalArg_instruction.mpr ⟨o, ho, rfl, rfl⟩, hu⟩
  | constant k =>
    cases k with
    | undef T' =>
      obtain ⟨n, w, ts, sz, rfl, rfl⟩ := h
      cases hx
      obtain ⟨_, _, _, heq, hall⟩ := hT _ rfl
      cases heq
      obtain ⟨p, d, hp⟩ : ∃ p d, freshPtr P (numbered "poison" (c.idx "poison"))
          (.struct n (.int w :: ts) sz) { c with
            freshIdx := c.freshIdx.insert "poison" (c.idx "poison" + 1) } = .ok p d :=
        exists_freshPtr hall (hs.poison _ (Nat.le_refl _))
      have hundef : undef P (.struct n (.int w :: ts) sz) c = .ok (.ptr p) d :=
        Py.bind_eq_ok.mpr ⟨_, _, rfl, Py.bind_eq_ok.mpr ⟨p, d, hp, rfl⟩⟩
      exact ⟨.ptr p, d, Py.bind_eq_ok.mpr ⟨_, c, rfl, Py.bind_eq_ok.mpr ⟨_, d, hundef, rfl⟩⟩,
        undef_first hundef⟩
    | _ => cases h

/-- The first field of an operand is what is extracted from it. -/
theorem extractValue_of_first (hP : P.Folds) (hs : Supply c) (hT : IntStruct T)
    (hx : AggregateOperand Γ T x) (h : FirstField P c x u) (w : Ty) :
    ∃ a e f, (PyInstVisitor.get x).evalArg P c = .ok a e ∧
      extractValue P w a e = .ok (.expr u) f ∧ KeepsReferences c f ∧ Supply f := by
  obtain ⟨o, e, ha, hu⟩ := exists_evalArg hs hT hx h
  obtain ⟨hkeeps, hse⟩ := evalArg_keeps hs ha
  obtain ⟨f, hf, hrefs, hlocals, hidx⟩ := extractValue_spec hP w hu
  refine ⟨.obj o, e, f, ha, hf, hkeeps.trans ⟨fun name r hr => ?_, hlocals⟩, ?_⟩
  · rw [hrefs, hr]
  · have hunused : ∀ base, Unused e base → Unused f base := by
      intro base hb k hk
      rw [hrefs]
      apply hb k
      rwa [Ctx.idx, hidx] at hk
    exact ⟨hunused _ hse.insert, hunused _ hse.poison⟩

theorem first_of_extractValue (hP : P.Folds) (ht : Typed P Γ c) (hT : IntStruct T)
    (hx : AggregateOperand Γ T x) (ha : (PyInstVisitor.get x).evalArg P c = .ok a e)
    (ho : extractValue P w a e = .ok o d) : ∃ u, FirstField P c x u := by
  cases x with
  | instruction n | argument n =>
    obtain ⟨o', ho', rfl, rfl⟩ := evalArg_instruction.mp ha
    obtain ⟨u, hu⟩ := ht.struct _ o' hx ho'
    exact ⟨u, o', ho', hu⟩
  | constant k =>
    cases k with
    | int => cases hx
    | struct => cases ha
    | aggregateZero =>
      cases ha
      cases ho
    | undef T' =>
      cases hx
      obtain ⟨t, _, htype, ha⟩ := Py.bind_eq_ok.mp ha
      obtain ⟨rfl, rfl⟩ := ofExcept_eq_ok.mp htype
      obtain ⟨o', _, hundef, ha⟩ := Py.bind_eq_ok.mp ha
      cases ha
      obtain ⟨n, ts, sz, rfl, hall⟩ := hT _ rfl
      cases ts with
      | nil =>
        obtain ⟨_, _, -, hundef⟩ := Py.bind_eq_ok.mp hundef
        obtain ⟨p, _, hp, hundef⟩ := Py.bind_eq_ok.mp hundef
        cases hundef
        obtain ⟨rfl, -⟩ := freshPtr_spec hp
        exact absurd ho (extractValue_empty hP)
      | cons t ts =>
        cases t with
        | int w => exact ⟨_, n, w, ts, sz, rfl, rfl⟩
        | _ => cases hall _ (List.mem_cons_self ..)

end

section

variable {T W : PyType} {agg val : LlvmValue Constant} {dst : String} {is : List Nat}

/-- What an `insertvalue` leaves. -/
theorem exec_insertvalue_ok (hP : P.Folds) (hs : Supply c) (hT : IntStruct T) {u : Value}
    (hval : ∀ a d e, (PyInstVisitor.get agg).evalArg P c = .ok a d →
      ∀ b, (PyInstVisitor.get val).evalArg P d = .ok b e → b = .obj (.expr u))
    (h : (PyInstVisitor.genPyCallFromInstruction (.insertvalue dst T agg val W is)).exec P c =
      .ok () d) :
    (∃ n t ts sz, T = .ok (.struct n (t :: ts) sz)) ∧ agg ≠ .constant .struct ∧
      ∃ o e, HasFirst P e o u ∧ KeepsReferences c e ∧ Supply e ∧
        e.setStack (PyInstVisitor.name dst) o = d := by
  obtain ⟨t, w, a, b, e, f, o, g, rfl, -, ha, hb, ho, rfl⟩ := exec_insertvalue_eq_ok.mp h
  obtain rfl := hval a e f ha b hb
  obtain ⟨hce, hse⟩ := evalArg_keeps hs ha
  obtain ⟨hef, hsf⟩ := evalArg_keeps hse hb
  obtain ⟨⟨n, t', ts, sz, rfl⟩, hfirst, hfg, hsg⟩ := insertValue_ok hP hsf hT ho
  refine ⟨⟨n, t', ts, sz, rfl⟩, ?_, o, g, hfirst, (hce.trans hef).trans hfg, hsg, rfl⟩
  rintro rfl
  cases ha

end

variable {inst : AggregateInst} {prog : List AggregateInst}

/-- One instruction keeps the stack typed. -/
theorem exec_typed (hP : P.Folds) (hi : WellTyped Γ inst) (hs : Supply c) (ht : Typed P Γ c)
    (h : (PyInstVisitor.genPyCallFromInstruction inst).exec P c = .ok () d) :
    Supply d ∧ Typed P Γ d := by
  cases hi with
  | @insertvalue dst T W agg val is hdst hT hagg hval =>
    obtain ⟨t, w, a, b, e, f, o, g, rfl, hW, ha, hb, ho, rfl⟩ := exec_insertvalue_eq_ok.mp h
    obtain ⟨hce, hse⟩ := evalArg_keeps hs ha
    obtain ⟨hef, hsf⟩ := evalArg_keeps hse hb
    obtain ⟨u, rfl⟩ := intOperand_expr (ht.keeps hce) hval hb
    obtain ⟨-, hfirst, hfg, hsg⟩ := insertValue_ok hP hsf hT ho
    exact ⟨hsg.setStack _ _,
      (ht.keeps ((hce.trans hef).trans hfg)).setStack_struct hdst hfirst⟩
  | @extractvalue dst T W agg is hdst hT hagg =>
    obtain ⟨t, w, a, e, o, f, rfl, -, ha, ho, rfl⟩ := exec_extractvalue_eq_ok.mp h
    obtain ⟨u, hu⟩ := first_of_extractValue hP ht hT hagg ha ho
    obtain ⟨a', e', f', ha', ho', hkeeps, hsf⟩ := extractValue_of_first hP hs hT hagg hu w
    cases ha'.symm.trans ha
    cases ho'.symm.trans ho
    exact ⟨hsf.setStack _ _, (ht.keeps hkeeps).setStack_int hdst⟩

/-- A sequence of instructions keeps the stack typed. -/
theorem execAggregates_typed (hP : P.Folds) (hprog : ∀ i ∈ prog, WellTyped Γ i) (hs : Supply c)
    (ht : Typed P Γ c) (h : execAggregates P prog c = .ok () d) : Supply d ∧ Typed P Γ d := by
  induction prog generalizing c with
  | nil =>
    cases h
    exact ⟨hs, ht⟩
  | cons i is ih =>
    obtain ⟨_, e, hi, his⟩ := Py.bind_eq_ok.mp h
    obtain ⟨hse, hte⟩ := exec_typed hP (hprog i (List.mem_cons_self ..)) hs ht hi
    exact ih (fun j hj => hprog j (List.mem_cons_of_mem i hj)) hse hte his

/-! ## The law -/

/-- The value of a name after a sequence. -/
def valueAfter (P : Lib) (c : Ctx) (prog : List AggregateInst) (dst : String) : Option Obj :=
  match execAggregates P prog c with
  | .ok _ d => d.stack.lookup (PyInstVisitor.name dst)
  | .error _ _ => none

/-- The value of an operand that is not made when it is used. -/
def operandValue (c : Ctx) : LlvmValue Constant → Option Obj
  | .instruction n | .argument n => c.stack.lookup (PyInstVisitor.name n)
  | .constant (.int value width) => some (.expr (constantInt value width))
  | _ => none

/-- `extractvalue (insertvalue (agg, val, i), j)` is `val` if the indices are the same, and
`extractvalue (agg, j)` otherwise. -/
def ExtractInsert (P : Lib) (c : Ctx) (σ : Env) (T : PyType) (agg val : LlvmValue Constant)
    (v w : Nat) (i j : List Nat) (x y z : String) : Prop :=
  ∃ r s : Value,
    valueAfter P c [.insertvalue x T agg val (.ok (.int v)) i,
      .extractvalue y (.ok (.int w)) (.instruction x) T j] y = some (.expr r) ∧
    (if i = j then operandValue c val
      else valueAfter P c [.extractvalue z (.ok (.int w)) agg T j] z) = some (.expr s) ∧
    r.val σ = s.val σ

/-- A named operand has a value. -/
def OnStack (c : Ctx) (x : LlvmValue Constant) : Prop :=
  ∀ key, PyInstVisitor.get x = .stack key → ∃ o, c.stack.lookup key = some o

theorem FirstField.onStack {x : LlvmValue Constant} {u : Value} (h : FirstField P c x u) :
    OnStack c x := by
  intro key hkey
  cases x with
  | instruction n | argument n =>
    cases hkey
    obtain ⟨o, ho, -⟩ := h
    exact ⟨o, ho⟩
  | constant => cases hkey

theorem exec_singleton (i : AggregateInst) : execAggregates P [i] c = .ok () d ↔
    (PyInstVisitor.genPyCallFromInstruction i).exec P c = .ok () d := by
  constructor
  · intro h
    obtain ⟨_, e, hi, h⟩ := Py.bind_eq_ok.mp h
    cases h
    exact hi
  · exact fun h => Py.bind_eq_ok.mpr ⟨(), d, h, rfl⟩

theorem valueAfter_eq_some {dst : String} {o : Obj} : valueAfter P c prog dst = some o ↔
    ∃ d, execAggregates P prog c = .ok () d ∧
      d.stack.lookup (PyInstVisitor.name dst) = some o := by
  rw [valueAfter]
  cases h : execAggregates P prog c with
  | ok _ d =>
    constructor
    · exact fun ho => ⟨d, rfl, ho⟩
    · rintro ⟨d, hd, ho⟩
      cases hd
      exact ho
  | error => exact ⟨nofun, fun ⟨_, h, _⟩ => nomatch h⟩

section

variable {T : PyType} {agg val : LlvmValue Constant} {v w : Nat} {i j : List Nat}
  {x y z : String} {u r : Value} {t : Ty}

theorem exec_extractvalue (hP : P.Folds) (hs : Supply c) (hT : IntStruct T)
    (hagg : AggregateOperand Γ T agg) (ht : T = .ok t) (h : FirstField P c agg u) :
    ∃ d, (PyInstVisitor.genPyCallFromInstruction
      (.extractvalue y (.ok (.int w)) agg T j)).exec P c = .ok () d ∧
        d.stack.lookup (PyInstVisitor.name y) = some (.expr u) := by
  obtain ⟨a, e, f, ha, hf, -⟩ := extractValue_of_first hP hs hT hagg h (.int w)
  refine ⟨f.setStack (PyInstVisitor.name y) (.expr u),
    exec_extractvalue_eq_ok.mpr ⟨t, _, a, e, _, f, ht, rfl, ha, hf, rfl⟩, ?_⟩
  rw [Ctx.stack_setStack, AList.lookup_insert]

/-- What is extracted from a struct value. -/
theorem valueAfter_extractvalue (hP : P.Folds) (hs : Supply c) (ht : Typed P Γ c)
    (hT : IntStruct T) (hagg : AggregateOperand Γ T agg) :
    valueAfter P c [.extractvalue z (.ok (.int w)) agg T j] z = some (.expr r) ↔
      (∃ t, T = .ok t) ∧ FirstField P c agg r := by
  constructor
  · intro h
    obtain ⟨d, hd, hr⟩ := valueAfter_eq_some.mp h
    have hexec := (exec_singleton _).mp hd
    obtain ⟨t, w', a, e, o, f, rfl, -, ha, ho, -⟩ := exec_extractvalue_eq_ok.mp hexec
    obtain ⟨u, hu⟩ := first_of_extractValue hP ht hT hagg ha ho
    obtain ⟨d', hd', hu'⟩ := exec_extractvalue hP hs hT hagg rfl hu (y := z) (w := w) (j := j)
    cases hd'.symm.trans hexec
    cases hu'.symm.trans hr
    exact ⟨⟨t, rfl⟩, hu⟩
  · rintro ⟨⟨t, rfl⟩, hr⟩
    obtain ⟨d, hd, hu⟩ := exec_extractvalue hP hs hT hagg rfl hr (y := z) (w := w) (j := j)
    exact valueAfter_eq_some.mpr ⟨d, (exec_singleton _).mpr hd, hu⟩

theorem evalArg_operandValue {o : Obj} (h : operandValue c val = some o) :
    (PyInstVisitor.get val).evalArg P c = .ok (.obj o) c := by
  cases val with
  | instruction n | argument n => exact evalArg_instruction.mpr ⟨o, h, rfl, rfl⟩
  | constant k =>
    cases k with
    | int =>
      cases h
      rfl
    | _ => cases h

theorem operandValue_keeps (h : KeepsReferences c d) : operandValue d val = operandValue c val := by
  cases val with
  | instruction n | argument n => rw [operandValue, operandValue, h.stack]
  | constant k => cases k <;> rfl

/-- The value is the same behind the evaluation of the struct. -/
theorem evalArg_after (hs : Supply c) (hval : operandValue c val = some (.expr u)) (a : PyArg)
    (e f : Ctx) (ha : (PyInstVisitor.get agg).evalArg P c = .ok a e) (b : PyArg)
    (hb : (PyInstVisitor.get val).evalArg P e = .ok b f) : b = .obj (.expr u) := by
  rw [← operandValue_keeps (evalArg_keeps hs ha).1] at hval
  cases (evalArg_operandValue hval).symm.trans hb
  rfl

/-- What was inserted last is extracted, with any indices. -/
theorem exec_extractvalue_after (hP : P.Folds) (hs : Supply c) (hT : IntStruct T)
    (hval : operandValue c val = some (.expr u))
    (h : (PyInstVisitor.genPyCallFromInstruction (.insertvalue x T agg val (.ok (.int v)) i)).exec
      P c = .ok () d) : ∃ e, (PyInstVisitor.genPyCallFromInstruction
        (.extractvalue y (.ok (.int w)) (.instruction x) T j)).exec P d = .ok () e ∧
        e.stack.lookup (PyInstVisitor.name y) = some (.expr u) := by
  obtain ⟨⟨n, t, ts, sz, hTt⟩, -, o, e, hfirst, -, hse, rfl⟩ := exec_insertvalue_ok hP hs hT
    (evalArg_after hs hval) h
  have hfield : FirstField P (e.setStack (PyInstVisitor.name x) o) (.instruction x) u := by
    refine ⟨o, ?_, hfirst.setStack⟩
    rw [Ctx.stack_setStack, AList.lookup_insert]
  have hx : AggregateOperand (fun _ => some .struct) T (.instruction x) := rfl
  exact exec_extractvalue hP (hse.setStack _ _) hT hx hTt hfield

theorem exists_exec_insertvalue (hP : P.Folds) (hs : Supply c) (hT : IntStruct T)
    (hagg : AggregateOperand Γ T agg)
    (hdef : OnStack c agg)
    (hval : operandValue c val = some (.expr u)) {n : String} {ts : List Ty} {sz : Option Nat}
    (ht : T = .ok (.struct n (t :: ts) sz)) (hne : agg ≠ .constant .struct) :
    ∃ d, (PyInstVisitor.genPyCallFromInstruction
      (.insertvalue x T agg val (.ok (.int v)) i)).exec P c = .ok () d := by
  obtain ⟨_, _, _, heq, hall⟩ := hT _ ht
  cases heq
  cases t with
  | int w₀ =>
    have ha : ∃ a e, (PyInstVisitor.get agg).evalArg P c = .ok a e := by
      cases agg with
      | instruction m | argument m =>
        obtain ⟨o, ho⟩ := hdef _ rfl
        exact ⟨_, c, evalArg_instruction.mpr ⟨o, ho, rfl, rfl⟩⟩
      | constant k =>
        cases k with
        | int => cases hagg
        | undef T' =>
          obtain ⟨o, e, ho, -⟩ := exists_evalArg hs hT hagg ⟨n, w₀, ts, sz, hagg.trans ht, rfl⟩
          exact ⟨_, e, ho⟩
        | aggregateZero => exact ⟨_, c, rfl⟩
        | struct => exact absurd rfl hne
    obtain ⟨a, e, ha⟩ := ha
    obtain ⟨hkeeps, hse⟩ := evalArg_keeps hs ha
    obtain ⟨o, f, ho, -⟩ := insertValue_spec hP hse (List.forall_mem_cons.mp hall).2 u
    rw [← operandValue_keeps hkeeps] at hval
    exact ⟨_, exec_insertvalue_eq_ok.mpr ⟨_, _, a, _, e, e, o, f, ht, rfl, ha,
      evalArg_operandValue hval, ho, rfl⟩⟩
  | _ => cases hall _ (List.mem_cons_self ..)

theorem valueAfter_insertvalue (hP : P.Folds) (hs : Supply c) (hT : IntStruct T)
    (hagg : AggregateOperand Γ T agg)
    (hdef : OnStack c agg)
    (hval : operandValue c val = some (.expr u)) :
    valueAfter P c [.insertvalue x T agg val (.ok (.int v)) i,
        .extractvalue y (.ok (.int w)) (.instruction x) T j] y = some (.expr r) ↔
      (∃ n t ts sz, T = .ok (.struct n (t :: ts) sz)) ∧ agg ≠ .constant .struct ∧ r = u := by
  constructor
  · intro h
    obtain ⟨d, hd, hr⟩ := valueAfter_eq_some.mp h
    obtain ⟨_, e, he, hd⟩ := Py.bind_eq_ok.mp hd
    have hexec := (exec_singleton _).mp hd
    obtain ⟨d', hd', hu⟩ := exec_extractvalue_after hP hs hT hval he (y := y) (w := w) (j := j)
    cases hd'.symm.trans hexec
    cases hu.symm.trans hr
    obtain ⟨htype, hne, -⟩ := exec_insertvalue_ok hP hs hT (evalArg_after hs hval) he
    exact ⟨htype, hne, rfl⟩
  · rintro ⟨⟨n, t, ts, sz, ht⟩, hne, rfl⟩
    obtain ⟨e, he⟩ := exists_exec_insertvalue hP hs hT hagg hdef hval ht hne (x := x) (v := v)
      (i := i)
    obtain ⟨d, hd, hr⟩ := exec_extractvalue_after hP hs hT hval he (y := y) (w := w) (j := j)
    exact valueAfter_eq_some.mpr ⟨d, Py.bind_eq_ok.mpr ⟨(), e, he, (exec_singleton _).mpr hd⟩, hr⟩

end

/-- The law holds where the indices are the same, or the struct has the value in its first field. -/
theorem extractInsert_iff {c₀ : Ctx} {σ : Env} {T : PyType} {agg val : LlvmValue Constant}
    {v w : Nat} {i j : List Nat} {x y z : String} {u : Value} (hP : P.Folds)
    (hprog : ∀ i ∈ prog, WellTyped Γ i) (hs : Supply c₀) (ht : Typed P Γ c₀)
    (hrun : execAggregates P prog c₀ = .ok () c) (hT : IntStruct T)
    (hagg : AggregateOperand Γ T agg)
    (hdef : OnStack c agg)
    (hval : operandValue c val = some (.expr u)) :
    ExtractInsert P c σ T agg val v w i j x y z ↔
      (∃ n t ts sz, T = .ok (.struct n (t :: ts) sz)) ∧ agg ≠ .constant .struct ∧
        (i = j ∨ ∃ s, FirstField P c agg s ∧ s.val σ = u.val σ) := by
  obtain ⟨hsc, htc⟩ := execAggregates_typed hP hprog hs ht hrun
  rw [ExtractInsert]
  constructor
  · rintro ⟨r, s, hleft, hright, heq⟩
    obtain ⟨htype, hne, rfl⟩ := (valueAfter_insertvalue hP hsc hT hagg hdef hval).mp hleft
    refine ⟨htype, hne, ?_⟩
    split at hright
    · next his => exact .inl his
    · obtain ⟨-, hfirst⟩ := (valueAfter_extractvalue hP hsc htc hT hagg).mp hright
      exact .inr ⟨s, hfirst, heq.symm⟩
  · rintro ⟨htype, hne, hcase⟩
    have hleft := (valueAfter_insertvalue hP hsc hT hagg hdef hval (x := x) (y := y) (v := v)
      (w := w) (i := i) (j := j)).mpr ⟨htype, hne, rfl⟩
    by_cases his : i = j
    · exact ⟨u, u, hleft, by rw [if_pos his, hval], rfl⟩
    · obtain ⟨s, hfirst, heq⟩ := hcase.resolve_left his
      obtain ⟨n, t, ts, sz, htt⟩ := htype
      refine ⟨u, s, hleft, ?_, heq.symm⟩
      rw [if_neg his]
      exact (valueAfter_extractvalue hP hsc htc hT hagg).mpr ⟨⟨_, htt⟩, hfirst⟩

/-! ## A struct of two integers -/

def pairType : PyType := .ok (.struct "pair" [.int 32, .int 32] none)

def pairStart : Ctx := { Ctx.new with locals := [∅] }

def pairKinds (_ : String) : Option Kind := some .struct

/-- `%p = insertvalue %pair undef, i32 7, 0`. -/
def pairInsert : AggregateInst :=
  .insertvalue "p" pairType (.constant (.undef pairType)) (.constant (.int 7 32)) (.ok (.int 32)) [0]

theorem intStruct_pairType : IntStruct pairType := by
  intro t ht
  cases ht
  exact ⟨_, _, _, rfl, by decide⟩

theorem supply_pairStart : Supply pairStart := ⟨fun _ _ => rfl, fun _ _ => rfl⟩

theorem typed_pairStart : Typed P pairKinds pairStart where
  struct _ _ _ h := nomatch h
  int _ _ _ h := nomatch h

theorem wellTyped_pairInsert : WellTyped pairKinds pairInsert :=
  have hval : IntOperand pairKinds (.constant (.int 7 32)) := trivial
  .insertvalue rfl intStruct_pairType rfl hval

theorem exists_pairInsert (hP : P.Folds) : ∃ c, execAggregates P [pairInsert] pairStart = .ok () c ∧
    FirstField P c (.instruction "p") (.bvVal 32 7) ∧ Supply c ∧ Typed P pairKinds c := by
  have hundef : AggregateOperand pairKinds pairType (.constant (.undef pairType)) := rfl
  obtain ⟨c, hc⟩ : ∃ c, (PyInstVisitor.genPyCallFromInstruction pairInsert).exec P pairStart =
      .ok () c :=
    exists_exec_insertvalue hP supply_pairStart intStruct_pairType hundef nofun rfl rfl nofun
  obtain ⟨-, -, o, e, hfirst, -, hs, rfl⟩ := exec_insertvalue_ok hP supply_pairStart
    intStruct_pairType (evalArg_after supply_pairStart rfl) hc
  have ht := (exec_typed hP wellTyped_pairInsert supply_pairStart typed_pairStart hc).2
  refine ⟨_, (exec_singleton _).mpr hc, ⟨o, ?_, hfirst.setStack⟩, hs.setStack _ _, ht⟩
  rw [Ctx.stack_setStack, AList.lookup_insert]

theorem folds_folding : Lib.folding.Folds := Solver.folding_folds

/-- The second field after it was set. -/
theorem exists_extractInsert : ∃ c, execAggregates .folding [pairInsert] pairStart = .ok () c ∧
    ExtractInsert .folding c default pairType (.instruction "p") (.constant (.int 8 32)) 32 32 [1] [1]
      "x" "y" "z" := by
  obtain ⟨c, hc, hfirst, -, -⟩ := exists_pairInsert folds_folding
  have hp : AggregateOperand pairKinds pairType (.instruction "p") := rfl
  refine ⟨c, hc, (extractInsert_iff folds_folding ?_ supply_pairStart typed_pairStart hc
    intStruct_pairType hp hfirst.onStack rfl).mpr ⟨⟨_, _, _, _, rfl⟩, nofun, .inl rfl⟩⟩
  intro i hi
  rw [List.mem_singleton.mp hi]
  exact wellTyped_pairInsert

/-- The first field is what the second one was set to. -/
theorem exists_not_extractInsert : ∃ (P : Lib) (c : Ctx), P.Folds ∧
    execAggregates P [pairInsert] pairStart = .ok () c ∧
    ¬ExtractInsert P c default pairType (.instruction "p") (.constant (.int 8 32)) 32 32 [1] [0]
      "x" "y" "z" := by
  obtain ⟨c, hc, hfirst, hs, ht⟩ := exists_pairInsert folds_folding
  have hp : AggregateOperand pairKinds pairType (.instruction "p") := rfl
  refine ⟨.folding, c, folds_folding, hc, ?_⟩
  rintro ⟨r, s, hleft, hright, heq⟩
  rw [if_neg (by decide)] at hright
  obtain ⟨-, -, rfl⟩ := (valueAfter_insertvalue folds_folding hs intStruct_pairType hp
    hfirst.onStack rfl).mp hleft
  have hs7 := (valueAfter_extractvalue folds_folding hs ht intStruct_pairType hp (z := "z")
    (w := 32) (j := [0])).mpr ⟨⟨_, rfl⟩, hfirst⟩
  cases hs7.symm.trans hright
  exact absurd heq (by decide)

end L4Thread.Irpy
