import L4Thread.Theory.Scalar

/-!
# The path condition

The solver and the path condition are shared by all evaluations. An evaluation is a run of acts: the
operations of the evaluator, and what lies between a `push` and its `pop`. The solver's scopes are a
stack that every act leaves as it was, but for the assumptions it adds to the innermost scope. The
path condition is a list that `pop` takes one element off, whatever was appended behind the `push`.
-/

namespace L4Thread.Irpy

open Smt

/-- The context behind an evaluation, which may have raised an exception. -/
def Py.after {α : Type} (x : Py α) (c : Ctx) : Ctx :=
  match x c with
  | .ok _ d | .error _ d => d

/-- An evaluation whose value does not count. -/
def Py.ignore {α : Type} (x : Py α) : Py Unit := do let _ ← x

/-- The scopes of the solver with another assertion in the innermost one. -/
def assert (scopes : List (List (Term .bool))) (t : Term .bool) : List (List (Term .bool)) :=
  match scopes with
  | [] => [[t]]
  | scope :: rest => (t :: scope) :: rest

/-- What became of the shared state: the path condition has `ps` appended and the innermost scope of
the solver `ss`. -/
structure Extends (c d : Ctx) (ps ss : List (Term .bool)) : Prop where
  pathCondition : d.pathCondition = c.pathCondition ++ ps
  solver : d.solver = ss.foldl assert c.solver
  snapshots : d.snapshots = c.snapshots
  depth : d.depth = c.depth

namespace Extends

variable {c d e : Ctx} {ps qs ss ts : List (Term .bool)}

theorem refl (c : Ctx) : Extends c c [] [] := ⟨(List.append_nil _).symm, rfl, rfl, rfl⟩

theorem trans (h : Extends c d ps ss) (h' : Extends d e qs ts) :
    Extends c e (ps ++ qs) (ss ++ ts) where
  pathCondition := by rw [h'.pathCondition, h.pathCondition, List.append_assoc]
  solver := by rw [h'.solver, h.solver, List.foldl_append]
  snapshots := h'.snapshots.trans h.snapshots
  depth := h'.depth.trans h.depth

end Extends

theorem extends_addAssumption (c : Ctx) (t : Term .bool) :
    Extends c (c.addAssumption t) [t] [t] := by
  obtain ⟨sc, solver, pc, snapshots, depth, idx⟩ := c
  cases solver <;> exact ⟨rfl, rfl, rfl, rfl⟩

/-- The scopes around the innermost one stay as they are. -/
theorem foldl_assert_cons (ss : List (Term .bool)) (scope : List (Term .bool))
    (rest : List (List (Term .bool))) :
    ss.foldl assert (scope :: rest) = (ss.reverse ++ scope) :: rest := by
  induction ss generalizing scope with
  | nil => rfl
  | cons t ss ih => rw [List.foldl_cons, assert, ih, List.reverse_cons, List.append_assoc]; rfl

/-- A `pop` restores the solver. Of the path condition it leaves the condition of the `push`, and
what was appended behind it, but for the last element. -/
theorem extends_pop {c d : Ctx} {t : Term .bool} {ps ss : List (Term .bool)}
    (h : Extends (c.push t) d ps ss) : Extends c d.pop.2 ((t :: ps).dropLast) [] ∧
      d.pop.2.toScope = c.toScope := by
  obtain ⟨sc, solver, pc, snapshots, depth, idx⟩ := d
  obtain ⟨hpc, hsolver, hsnap, hdepth⟩ := h
  cases hsnap
  cases hdepth
  cases hpc
  cases hsolver
  refine ⟨⟨?_, ?_, rfl, rfl⟩, rfl⟩
  · show ((c.pathCondition ++ [t]) ++ ps).dropLast = _
    rw [List.append_assoc]
    exact List.dropLast_append_of_ne_nil (List.cons_ne_nil t ps)
  · show (List.foldl assert ([t] :: c.solver) ss).tail = _
    rw [foldl_assert_cons]
    rfl

/-! ## Evaluations that leave the shared state alone -/

/-- Nothing is assumed, pushed or popped. -/
def Quiet {α : Type} (x : Py α) : Prop := ∀ c, Extends c (x.after c) [] []

namespace Quiet

variable {α β : Type} {P : Lib}

theorem pure (a : α) : Quiet (pure a : Py α) := fun c => Extends.refl c

theorem throw (e : Exc) : Quiet (throw e : Py α) := fun c => Extends.refl c

theorem bind {x : Py α} {f : α → Py β} (hx : Quiet x) (hf : ∀ a, Quiet (f a)) :
    Quiet (x >>= f) := by
  intro c
  have h := hx c
  unfold Py.after at h ⊢
  rw [Py.bind_apply]
  cases hrun : x c with
  | error e d => simpa only [hrun] using h
  | ok a d =>
    rw [hrun] at h
    exact h.trans (hf a d)

theorem get : Quiet (get : Py Ctx) := fun c => Extends.refl c

theorem ofExcept (e : Except Exc α) : Quiet (ofExcept e) := by
  cases e
  · exact throw _
  · exact pure _

theorem check (b : Bool) : Quiet (check b) := by
  cases b
  · exact throw _
  · exact pure _

theorem pathConditionImplies (t : Term .bool) : Quiet (pathConditionImplies P t) :=
  get.bind fun _ => pure _

theorem freshName (name : String) : Quiet (freshName name) :=
  fun _ => ⟨(List.append_nil _).symm, rfl, rfl, rfl⟩

theorem ite {p : Prop} [Decidable p] {x y : Py α} (hx : Quiet x) (hy : Quiet y) :
    Quiet (if p then x else y) := by
  split
  · exact hx
  · exact hy

/-! ### Memory -/

theorem buildFieldTupleAndPath (typ : Ty) (path : List Value) :
    Quiet (buildFieldTupleAndPath P typ path) := by
  induction path generalizing typ with
  | nil => exact pure _
  | cons i path ih =>
    cases typ with
    | array n t =>
      refine (ofExcept _).bind fun _ => (pathConditionImplies _).bind fun _ => ite ?_ (throw _)
      exact (ih t).bind fun _ => pure _
    | pointer t =>
      refine (ofExcept _).bind fun _ => (pathConditionImplies _).bind fun _ => ite ?_ (throw _)
      exact (ih t).bind fun _ => pure _
    | struct name ts size =>
      rw [Irpy.buildFieldTupleAndPath]
      split
      · exact throw _
      · split
        · exact throw _
        · exact (ih _).bind fun _ => pure _
    | _ => exact throw _

theorem fieldFunction (ref : Reference) (fields : List Nat) : Quiet (fieldFunction ref fields) := by
  refine get.bind fun c => ?_
  split
  · exact throw _
  · split
    · exact throw _
    · exact pure _

/-- A change of what a snapshot restores. -/
theorem modifyScope (f : Ctx → Scope) :
    Quiet (modify fun c : Ctx => { c with toScope := f c } : Py Unit) :=
  fun _ => ⟨(List.append_nil _).symm, rfl, rfl, rfl⟩

theorem access (ref : Reference) : Quiet (access ref) := modifyScope _

theorem referenceRead (ref : Reference) (path : List Value) : Quiet (ref.read P path) :=
  (buildFieldTupleAndPath _ _).bind fun _ => (access _).bind fun _ =>
    (fieldFunction _ _).bind fun _ => ofExcept _

theorem referenceWrite (ref : Reference) (path : List Value) (value : Obj) :
    Quiet (ref.write P path value) :=
  (buildFieldTupleAndPath _ _).bind fun _ => (fieldFunction _ _).bind fun _ =>
    (access _).bind fun _ => modifyScope _

theorem bitvecRead (name : Term (.bv 64)) (type : Ty) : Quiet (Pointer.bitvecRead P name type) :=
  (freshName _).bind fun _ => pure _

theorem read (p : Pointer) : Quiet (p.read P) := by
  induction p with
  | base ref geps type => exact (ofExcept _).bind fun _ => referenceRead _ _
  | raw name type => exact bitvecRead _ _
  | ite cond p1 p2 name type ih1 ih2 =>
    exact ih1.bind fun _ => ih2.bind fun _ => ofExcept _

theorem write (p : Pointer) (value : Obj) : Quiet (p.write P value) := by
  induction p generalizing value with
  | base ref geps type => exact (ofExcept _).bind fun _ => referenceWrite _ _ _
  | raw name type => exact pure _
  | ite cond p1 p2 name type ih1 ih2 =>
    rw [Pointer.write]
    refine (read p1).bind fun _ => (ofExcept _).bind fun _ => (ih1 _).bind fun _ => ?_
    exact (read p2).bind fun _ => (ofExcept _).bind fun _ => ih2 _

theorem freshRef (name : String) (type : Ty) (tup : List Nat) (depth : Nat) :
    Quiet (freshRef name type tup depth) := by
  have hleaf : ∀ w tup depth, Quiet (freshRef.leaf name w tup depth) :=
    fun _ _ _ => (freshName _).bind fun _ => pure _
  refine freshRef.induct (fun tup depth i ts => Quiet (freshRef.fields name tup depth i ts))
    (fun type tup depth => Quiet (Irpy.freshRef name type tup depth)) ?_ ?_ ?_ ?_ ?_ ?_ ?_ ?_ type
    tup depth
  · intro _ ts _ tup depth ih
    rwa [Irpy.freshRef]
  · intro w tup depth
    rw [Irpy.freshRef]
    exact hleaf _ _ _
  · intro t tup depth hdepth
    rw [Irpy.freshRef, if_pos hdepth]
    exact hleaf _ _ _
  · intro t tup depth hdepth ih
    rwa [Irpy.freshRef, if_neg hdepth]
  · intro len t tup depth ih
    rwa [Irpy.freshRef]
  · intro t tup depth h1 h2 h3 h4
    rw [Irpy.freshRef.eq_def]
    cases t with
    | struct name ts size => exact absurd rfl (h1 name ts size)
    | int w => exact absurd rfl (h2 w)
    | pointer t => exact absurd rfl (h3 t)
    | array len t => exact absurd rfl (h4 len t)
    | _ => exact throw _
  · intro tup depth i
    rw [Irpy.freshRef.fields]
    exact pure _
  · intro tup depth i t ts iht ihts
    rw [Irpy.freshRef.fields]
    exact iht.bind fun _ => ihts.bind fun _ => pure _

theorem initRef (ref : Reference) : Quiet (initRef ref) :=
  (freshRef _ _ _ _).bind fun _ => get.bind fun _ => ite (throw _) (modifyScope _)

theorem bitcast (returnType : Ty) (value : Obj) : Quiet (bitcast returnType value) := by
  cases value
  case ptr => exact pure _
  all_goals exact throw _

theorem load (returnType : Ty) (target : Obj) (targetType : Ty) :
    Quiet (load P returnType target targetType) := by
  refine ite ?_ (throw _)
  cases target
  case ptr p => exact read p
  all_goals exact throw _

theorem store (returnType : Ty) (target : Obj) (targetType : Ty) (dest : Obj) (destType : Ty) :
    Quiet (store P returnType target targetType dest destType) := by
  refine ite ?_ (throw _)
  cases dest
  case ptr p => exact (write p target).bind fun _ => ite (pure _) (throw _)
  all_goals exact throw _

/-! ### Integers -/

theorem checkTypes (r a b : Ty) : Quiet (checkTypes r a b) := (check _).bind fun _ => check _

theorem getPoison (w : Nat) : Quiet (getPoison w) :=
  (freshName _).bind fun _ => ite (pure _) (pure _)

variable (t : Ty) (a b : Value) (f : Flags)

theorem flag (flag signed : Bool) {x : Py Value} (hx : Quiet x) :
    Quiet (if flag then do
        let t ← Irpy.ofExcept (bvaddNoOverflow a b signed)
        let ok ← Irpy.pathConditionImplies P t
        Irpy.check ok
        x
      else x) :=
  ite ((ofExcept _).bind fun _ => (pathConditionImplies _).bind fun _ => (check _).bind fun _ => hx)
    hx

theorem add : Quiet (add P t a t b t f) :=
  (checkTypes _ _ _).bind fun _ => flag a b _ _ (flag a b _ _ (ofExcept _))

theorem plain (op : BvOp) : Quiet (plain op t a t b t f) :=
  (checkTypes _ _ _).bind fun _ => (check _).bind fun _ => ofExcept _

theorem division (op : BvOp) : Quiet (division P op t a t b t f) :=
  (checkTypes _ _ _).bind fun _ => (check _).bind fun _ => (ofExcept _).bind fun _ =>
    (pathConditionImplies _).bind fun _ => (check _).bind fun _ => ofExcept _

theorem shift (op : BvOp) : Quiet (shift P op t a t b t f) := by
  have hrun : Quiet (do
      let cond ← Irpy.ofExcept (bvCmp .ult b (.bvVal t.size t.size))
      let cond ← Irpy.ofExcept (boolTerm cond)
      let shifted ← Irpy.ofExcept (bvBin op a b)
      let poison ← Irpy.getPoison t.size
      let v ← Irpy.ofExcept (ifValue P cond shifted poison)
      Pure.pure (⟨v.sort, partialEval P (← MonadState.get).assertions v.term⟩ : Value)) :=
    (ofExcept _).bind fun _ => (ofExcept _).bind fun _ => (ofExcept _).bind fun _ =>
      (getPoison _).bind fun _ => (ofExcept _).bind fun _ => get.bind fun _ => pure _
  have hchecked := (checkTypes t t t).bind fun _ => (check (!f.nuw && !f.nsw)).bind fun _ => hrun
  exact ite ((throw _).bind fun _ => hchecked) hchecked

theorem logical (bop : Term .bool → Term .bool → Term .bool) (op : BvOp) :
    Quiet (logical P bop op t a t b t) :=
  (checkTypes _ _ _).bind fun _ => ite
    ((ofExcept _).bind fun _ => (ofExcept _).bind fun _ => (check _).bind fun _ => pure _)
    (ofExcept _)

theorem integerSize (t : Ty) : Quiet (integerSize t) := by
  cases t
  case int => exact pure _
  all_goals exact throw _

theorem trunc (r t : Ty) (a : Value) : Quiet (trunc r a t) := by
  refine (integerSize _).bind fun _ => (integerSize _).bind fun _ => (check _).bind fun _ => ?_
  obtain ⟨s, u⟩ := a
  cases s
  case bv => exact ite (pure _) (throw _)
  all_goals exact throw _

theorem zext (r t : Ty) (a : Value) : Quiet (zext P r a t) := by
  refine (integerSize _).bind fun _ => (integerSize _).bind fun _ => (check _).bind fun _ => ?_
  obtain ⟨s, u⟩ := a
  cases s
  case bool => exact ofExcept _
  case bv => exact pure _
  all_goals exact throw _

theorem sext (r t : Ty) (a : Value) : Quiet (sext P r a t) := by
  refine (integerSize _).bind fun _ => (integerSize _).bind fun _ => (check _).bind fun _ => ?_
  obtain ⟨s, u⟩ := a
  cases s
  case bool => exact ofExcept _
  case bv => exact pure _
  all_goals exact throw _

theorem compare (op : BvCmp) : Quiet (compare op a t b t) := (check _).bind fun _ => ofExcept _

theorem eq (t : Ty) (a b : Obj) : Quiet (eq P a t b t) := by
  unfold Irpy.eq
  split
  · exact (ofExcept _).bind fun _ => pure _
  · exact (ofExcept _).bind fun _ => pure _
  · exact (check _).bind fun _ => (ofExcept _).bind fun _ => pure _
  · exact (check _).bind fun _ => (ofExcept _).bind fun _ => pure _
  · exact (check _).bind fun _ => pure _
  · exact throw _

theorem ne (t : Ty) (a b : Obj) : Quiet (ne P a t b t) :=
  (eq t a b).bind fun _ => (ofExcept _).bind fun _ => pure _

theorem select (t : Ty) (cond : Value) (condType : Ty) (a b : Obj) :
    Quiet (select P t cond condType a t b t) :=
  (check _).bind fun _ => (integerSize _).bind fun _ => (check _).bind fun _ =>
    (check _).bind fun _ => (check _).bind fun _ => (ofExcept _).bind fun _ => ofExcept _

end Quiet

/-! ## Pointers -/

section

variable (P : Lib)

/-- What the creation of an initialised pointer assumes: its name is not the null pointer. -/
def notNull (ref : Reference) (geps : Geps) : Term .bool :=
  .not (.eq (.var (ref.name ++ P.str geps) (.bv 64)) null)

/-- What a `getelementptr` assumes: it initialises a pointer for every initialised one that the
pointer can be. -/
def Pointer.gepAssumes (idxs : List Value) : Pointer → List (Term .bool)
  | base ref geps _ => if idxs = [] then [] else [notNull P ref (geps ++ [idxs])]
  | raw _ _ => []
  | ite _ p1 p2 _ _ => p2.gepAssumes idxs ++ p1.gepAssumes idxs

/-- What `fresh_ptr` assumes, if the reference is a new one. -/
def freshAssumes (name : String) (type : Ty) (c : Ctx) : List (Term .bool) :=
  match initRef ⟨name, type⟩ c with
  | .ok _ _ => [notNull P ⟨name, type⟩ []]
  | .error _ _ => []

end

section

variable {P : Lib}

theorem extends_make (ref : Reference) (geps : Geps) (type : Ty) (c : Ctx) :
    Extends c ((Pointer.make P ref geps type).after c) [notNull P ref geps] [notNull P ref geps] :=
  extends_addAssumption c _

theorem exists_iteObj (p q : Pointer) (cond : Term .bool) :
    ∃ r, p.iteObj P (.ptr q) cond = .ok r := by
  obtain ⟨t, ht⟩ := iteObj_ptr (P := P) p q cond
  exact ⟨_, ht⟩

theorem gepAssumes_nil (p : Pointer) : p.gepAssumes P [] = [] := by
  induction p with
  | base ref geps t => rw [Pointer.gepAssumes, if_pos rfl]
  | raw name t => rfl
  | ite cond p1 p2 name t ih1 ih2 =>
    rw [Pointer.gepAssumes, ih1, ih2]
    rfl

theorem quiet_gep_nil (type : Ty) (p : Pointer) : Quiet (p.getelementptr P [] type) := by
  induction p with
  | base ref geps t =>
    rw [Pointer.getelementptr, if_pos rfl]
    exact Quiet.throw _
  | raw name t => exact (Quiet.freshName _).bind fun _ => Quiet.pure _
  | ite cond p1 p2 name t ih1 ih2 =>
    exact ih2.bind fun _ => ih1.bind fun _ => Quiet.ofExcept _

theorem extends_gep {idxs : List Value} (hidxs : idxs ≠ []) (type : Ty) (p : Pointer) (c : Ctx) :
    ∃ q d, p.getelementptr P idxs type c = .ok q d ∧
      Extends c d (p.gepAssumes P idxs) (p.gepAssumes P idxs) := by
  induction p generalizing c with
  | base ref geps t =>
    rw [Pointer.getelementptr, Pointer.gepAssumes, if_neg hidxs, if_neg hidxs]
    exact ⟨_, _, rfl, extends_make ref _ type c⟩
  | raw name t =>
    exact ⟨_, _, rfl, Quiet.freshName (P.strTerm name ++ ".get") c⟩
  | ite cond p1 p2 name t ih1 ih2 =>
    obtain ⟨q2, d, hq2, hd⟩ := ih2 c
    obtain ⟨q1, e, hq1, he⟩ := ih1 d
    obtain ⟨r, hr⟩ := exists_iteObj (P := P) q1 q2 cond
    refine ⟨r, e, ?_, hd.trans he⟩
    rw [Pointer.getelementptr, Py.bind_apply, hq2]
    dsimp only
    rw [Py.bind_apply, hq1]
    dsimp only
    rw [hr]
    rfl

theorem extends_freshPtr (name : String) (type : Ty) (c : Ctx) :
    Extends c ((freshPtr P name type).after c) (freshAssumes P name type c)
      (freshAssumes P name type c) := by
  have h := Quiet.initRef ⟨name, type⟩ c
  unfold Py.after at h ⊢
  unfold freshAssumes
  rw [freshPtr, Py.bind_apply]
  cases hrun : initRef ⟨name, type⟩ c with
  | error e d => simpa only [hrun] using h
  | ok u d =>
    rw [hrun] at h
    exact h.trans (extends_make _ _ _ d)

end

/-! ## Acts -/

/-- An operation of the evaluator. What an evaluation does to globals, locals and references
otherwise (the frames of calls, `restore` and `merge`) is any change of the scope. -/
inductive Op
  | addAssumption (t : Term .bool)
  | pointer (ref : Reference) (geps : Geps) (type : Ty)
  | freshPtr (name : String) (type : Ty)
  | alloca (type : Ty)
  | getElementPtr (returnType : Ty) (target : Obj) (idxs : List Value)
  | load (returnType : Ty) (target : Obj) (targetType : Ty)
  | store (returnType : Ty) (target : Obj) (targetType : Ty) (dest : Obj) (destType : Ty)
  | bitcast (returnType : Ty) (value : Obj)
  | bin (op : Llvm.BinOp) (w : Nat) (a b : Value)
  | eq (type : Ty) (a b : Obj)
  | ne (type : Ty) (a b : Obj)
  | compare (op : BvCmp) (type : Ty) (a b : Value)
  | trunc (returnType : Ty) (a : Value) (type : Ty)
  | zext (returnType : Ty) (a : Value) (type : Ty)
  | sext (returnType : Ty) (a : Value) (type : Ty)
  | select (type : Ty) (cond : Value) (condType : Ty) (a b : Obj)
  | undef (w : Nat)
  | scope (f : Ctx → Scope)

/-- An operation, or what lies between a `push` and its `pop`. -/
inductive Act
  | op (o : Op)
  | inside (t : Term .bool) (body : List Act)

section

variable (P : Lib)

/-- The evaluation of an operation. -/
def Op.run : Op → Py Unit
  | addAssumption t => modify fun c => c.addAssumption t
  | pointer ref geps type => Py.ignore (Pointer.make P ref geps type)
  | freshPtr name type => Py.ignore (Irpy.freshPtr P name type)
  | alloca type => Py.ignore (Irpy.alloca P type)
  | getElementPtr returnType target idxs => Py.ignore (Irpy.getElementPtr P returnType target idxs)
  | load returnType target type => Py.ignore (Irpy.load P returnType target type)
  | store returnType target type dest destType => Irpy.store P returnType target type dest destType
  | bitcast returnType value => Py.ignore (Irpy.bitcast returnType value)
  | bin op w a b => Py.ignore (evalBin P op w a b)
  | eq type a b => Py.ignore (Irpy.eq P a type b type)
  | ne type a b => Py.ignore (Irpy.ne P a type b type)
  | compare op type a b => Py.ignore (Irpy.compare op a type b type)
  | trunc returnType a type => Py.ignore (Irpy.trunc returnType a type)
  | zext returnType a type => Py.ignore (Irpy.zext P returnType a type)
  | sext returnType a type => Py.ignore (Irpy.sext P returnType a type)
  | select type cond condType a b => Py.ignore (Irpy.select P type cond condType a type b type)
  | undef w => Py.ignore (getPoison w)
  | scope f => modify fun c => { c with toScope := f c }

/-- What an operation assumes. -/
def Op.assumes : Op → Ctx → List (Term .bool)
  | addAssumption t, _ => [t]
  | pointer ref geps _, _ => [notNull P ref geps]
  | freshPtr name type, c => freshAssumes P name type c
  | alloca (.pointer t), c =>
    match freshName "alloca" c with
    | .ok n d => freshAssumes P n (.pointer t) d
    | .error _ _ => []
  | getElementPtr _ (.ptr p) idxs, _ => p.gepAssumes P idxs
  | _, _ => []

mutual

/-- The context behind an act. An exception ends the acts of a scope, but not its `pop`. -/
def Act.exec : Act → Ctx → Ctx
  | .op o, c => (o.run P).after c
  | .inside t body, c => (execAll body (c.push t)).pop.2

def execAll : List Act → Ctx → Ctx
  | [], c => c
  | a :: as, c => execAll as (a.exec c)

end

mutual

/-- No operation assumes anything. -/
def Act.Silent : Act → Ctx → Prop
  | .op o, c => o.assumes P c = []
  | .inside t body, c => SilentAll body (c.push t)

def SilentAll : List Act → Ctx → Prop
  | [], _ => True
  | a :: as, c => a.Silent c ∧ SilentAll as (a.exec P c)

end

mutual

/-- Whatever was between a `push` and its `pop`, the `pop` restores the path condition and the
solver. -/
def Act.Restores : Act → Ctx → Prop
  | .op _, _ => True
  | .inside t body, c =>
    RestoresAll body (c.push t) ∧
      ((Act.inside t body).exec P c).pathCondition = c.pathCondition ∧
        ((Act.inside t body).exec P c).solver = c.solver

def RestoresAll : List Act → Ctx → Prop
  | [], _ => True
  | a :: as, c => a.Restores c ∧ RestoresAll as (a.exec P c)

end

mutual

/-- Nothing is assumed between a `push` and its `pop`. -/
def Act.Disciplined : Act → Ctx → Prop
  | .op _, _ => True
  | .inside t body, c => SilentAll P body (c.push t)

def DisciplinedAll : List Act → Ctx → Prop
  | [], _ => True
  | a :: as, c => a.Disciplined c ∧ DisciplinedAll as (a.exec P c)

end

/-- What is assumed outside of all branches. -/
def outerAssumptions : List Act → Ctx → List (Term .bool)
  | [], _ => []
  | .op o :: as, c => o.assumes P c ++ outerAssumptions as ((Act.op o).exec P c)
  | .inside t body :: as, c => outerAssumptions as ((Act.inside t body).exec P c)

end

section

variable {P : Lib}

theorem after_ignore {α : Type} (x : Py α) (c : Ctx) : x.ignore.after c = x.after c := by
  unfold Py.after Py.ignore
  rw [Py.bind_apply]
  cases x c <;> rfl

theorem Quiet.ignore {α : Type} {x : Py α} (h : Quiet x) : Quiet x.ignore :=
  h.bind fun _ => Quiet.pure _

theorem Quiet.evalBin (op : Llvm.BinOp) (w : Nat) (a b : Value) : Quiet (evalBin P op w a b) := by
  cases op
  case add => exact Quiet.add _ _ _ _
  case sub | mul => exact Quiet.plain _ _ _ _ _
  case udiv | sdiv | urem | srem => exact Quiet.division _ _ _ _ _
  case shl nuw nsw => exact (Quiet.shift (.int w) a b ⟨nuw, nsw, false⟩ .shl : _)
  case lshr | ashr => exact Quiet.shift _ _ _ _ _
  case and | or | xor => exact Quiet.logical _ _ _ _ _

/-- What an operation does to the shared state. -/
theorem extends_op (o : Op) (c : Ctx) :
    Extends c ((o.run P).after c) (o.assumes P c) (o.assumes P c) := by
  cases o with
  | addAssumption t => exact extends_addAssumption c t
  | pointer ref geps type =>
    rw [Op.run, after_ignore]
    exact extends_make ref geps type c
  | freshPtr name type =>
    rw [Op.run, after_ignore]
    exact extends_freshPtr name type c
  | alloca type =>
    rw [Op.run, after_ignore]
    cases type with
    | pointer t =>
      have h := Quiet.freshName "alloca" c
      unfold Py.after at h ⊢
      rw [Op.assumes, Irpy.alloca, Py.bind_apply]
      cases hrun : freshName "alloca" c with
      | error e d => simpa only [hrun] using h
      | ok n d =>
        rw [hrun] at h
        exact h.trans (extends_freshPtr n (.pointer t) d)
    | _ => exact Quiet.throw _ c
  | getElementPtr type target idxs =>
    rw [Op.run, after_ignore]
    cases target with
    | ptr p =>
      rw [Op.assumes]
      by_cases hidxs : idxs = []
      · subst hidxs
        rw [gepAssumes_nil]
        exact (quiet_gep_nil type p).bind (fun _ => Quiet.pure _) c
      · obtain ⟨q, d, hq, hd⟩ := extends_gep (P := P) hidxs type p c
        unfold Py.after getElementPtr
        dsimp only
        rw [Py.bind_apply, hq]
        exact hd
    | bitcast p t geps => exact Quiet.ite (Quiet.pure _) (Quiet.throw _) c
    | _ => exact Quiet.throw _ c
  | load type target t => exact (Quiet.load type target t).ignore c
  | store type target t dest u => exact Quiet.store type target t dest u c
  | bitcast type value => exact (Quiet.bitcast type value).ignore c
  | bin op w a b => exact (Quiet.evalBin op w a b).ignore c
  | eq t a b => exact (Quiet.eq t a b).ignore c
  | ne t a b => exact (Quiet.ne t a b).ignore c
  | compare op t a b => exact (Quiet.compare t a b op).ignore c
  | trunc r a t => exact (Quiet.trunc r t a).ignore c
  | zext r a t => exact (Quiet.zext r t a).ignore c
  | sext r a t => exact (Quiet.sext r t a).ignore c
  | select t cond ct a b => exact (Quiet.select t cond ct a b).ignore c
  | undef w => exact (Quiet.getPoison w).ignore c
  | scope f => exact Quiet.modifyScope f c

/-- What acts do to the shared state: they append to the path condition, more than to the solver
unless they are disciplined, and nothing if they are silent. -/
structure Grows (c d : Ctx) (outer : List (Term .bool)) (silent disciplined : Prop) : Prop where
  exists_appended : ∃ ps, Extends c d ps outer ∧ (ps = [] ↔ silent) ∧ outer.length ≤ ps.length ∧
    (ps = outer ↔ disciplined)

namespace Grows

variable {c d e : Ctx} {o o' : List (Term .bool)} {s s' t t' : Prop}

theorem nil (c : Ctx) : Grows c c [] True True :=
  ⟨[], Extends.refl c, by simp⟩

theorem append (h : Grows c d o s t) (h' : Grows d e o' s' t') :
    Grows c e (o ++ o') (s ∧ s') (t ∧ t') := by
  obtain ⟨ps, hps, hs, hle, ht⟩ := h
  obtain ⟨qs, hqs, hs', hle', ht'⟩ := h'
  refine ⟨ps ++ qs, hps.trans hqs, ?_, ?_, ?_⟩
  · rw [List.append_eq_nil_iff, hs, hs']
  · rw [List.length_append, List.length_append]
    exact Nat.add_le_add hle hle'
  · rw [← ht, ← ht']
    constructor
    · intro h
      have hlen := congrArg List.length h
      rw [List.length_append, List.length_append] at hlen
      exact List.append_inj h (by omega)
    · rintro ⟨rfl, rfl⟩
      rfl

theorem op (o : Op) (c : Ctx) :
    Grows c ((Act.op o).exec P c) (o.assumes P c) (o.assumes P c = []) True := by
  rw [Act.exec]
  exact ⟨_, extends_op o c, Iff.rfl, le_rfl, iff_of_true rfl trivial⟩

theorem inside {b : Term .bool} (h : Grows (c.push b) d o s t) : Grows c d.pop.2 [] s s := by
  obtain ⟨ps, hps, hs, -, -⟩ := h
  have hnil : (b :: ps).dropLast = [] ↔ s := by
    rw [← hs]
    cases ps <;> simp
  exact ⟨_, (extends_pop hps).1, hnil, Nat.zero_le _, hnil⟩

end Grows

mutual

theorem act_grows (a : Act) (c : Ctx) :
    Grows c (a.exec P c) (outerAssumptions P [a] c) (a.Silent P c) (a.Disciplined P c) := by
  cases a with
  | op o =>
    have h := Grows.op (P := P) o c
    rw [Act.Silent, Act.Disciplined, outerAssumptions, outerAssumptions, List.append_nil]
    exact h
  | inside t body =>
    rw [Act.Silent, Act.Disciplined, outerAssumptions, outerAssumptions, Act.exec]
    exact (acts_grow body (c.push t)).inside

theorem acts_grow (as : List Act) (c : Ctx) :
    Grows c (execAll P as c) (outerAssumptions P as c) (SilentAll P as c)
      (DisciplinedAll P as c) := by
  cases as with
  | nil =>
    rw [execAll, outerAssumptions, SilentAll, DisciplinedAll]
    exact Grows.nil c
  | cons a as =>
    have h := (act_grows a c).append (acts_grow as (a.exec P c))
    rw [execAll, SilentAll, DisciplinedAll]
    cases a <;> simpa only [outerAssumptions, List.append_nil, List.nil_append] using h

end

theorem Act.Silent.disciplined {a : Act} {c : Ctx} (h : a.Silent P c) : a.Disciplined P c := by
  cases a with
  | op o => rw [Act.Disciplined]; trivial
  | inside t body => rwa [Act.Disciplined, ← Act.Silent]

theorem SilentAll.disciplined {as : List Act} {c : Ctx} (h : SilentAll P as c) :
    DisciplinedAll P as c := by
  induction as generalizing c with
  | nil => rw [DisciplinedAll]; trivial
  | cons a as ih =>
    rw [SilentAll] at h
    rw [DisciplinedAll]
    exact ⟨h.1.disciplined, ih h.2⟩

/-- The solver is restored in any case, and the path condition if and only if nothing was assumed
since the `push`. -/
theorem inside_restored_iff (t : Term .bool) (body : List Act) (c : Ctx) :
    ((Act.inside t body).exec P c).solver = c.solver ∧
      (((Act.inside t body).exec P c).pathCondition = c.pathCondition ↔
        SilentAll P body (c.push t)) := by
  obtain ⟨ps, hps, hs, -, -⟩ := (acts_grow (P := P) body (c.push t)).inside
  rw [Act.exec]
  refine ⟨hps.solver, ?_⟩
  rw [hps.pathCondition, List.append_right_eq_self, hs]

mutual

theorem act_restores_iff (a : Act) (c : Ctx) : a.Restores P c ↔ a.Disciplined P c := by
  cases a with
  | op o => rw [Act.Restores, Act.Disciplined]
  | inside t body =>
    obtain ⟨hsolver, hpc⟩ := inside_restored_iff (P := P) t body c
    rw [Act.Restores, Act.Disciplined, hpc]
    constructor
    · exact fun h => h.2.1
    · exact fun h => ⟨(acts_restore_iff body (c.push t)).2 h.disciplined, h, hsolver⟩

theorem acts_restore_iff (as : List Act) (c : Ctx) :
    RestoresAll P as c ↔ DisciplinedAll P as c := by
  cases as with
  | nil => rw [RestoresAll, DisciplinedAll]
  | cons a as =>
    rw [RestoresAll, DisciplinedAll]
    exact and_congr (act_restores_iff a c) (acts_restore_iff as _)

end

/-! ## Evaluations are runs of acts -/

theorem execAll_append (as bs : List Act) (c : Ctx) :
    execAll P (as ++ bs) c = execAll P bs (execAll P as c) := by
  induction as generalizing c with
  | nil => rw [List.nil_append, execAll]
  | cons a as ih => rw [List.cons_append, execAll, execAll, ih]

theorem after_bind_of_ok {α β : Type} {x : Py α} {f : α → Py β} {c d : Ctx} {a : α}
    (h : x c = .ok a d) : (x >>= f).after c = (f a).after d := by
  unfold Py.after
  rw [Py.bind_apply, h]

theorem after_runBody (t : Term .bool) (body : Py (Option Obj)) (c : Ctx) :
    (runBody P t body).after c = (body.after (c.push t)).pop.2 := by
  have htry : ∃ out, (tryCatch (do let v ← body; pure (Outcome.returned v)) fun e =>
      if e = .unreachable then do
        if ← pathConditionImplies P (.lit false) then pure .panic else pure .failed
      else pure (.raised e) : Py Outcome) (c.push t) = .ok out (body.after (c.push t)) := by
    show ∃ out, EStateM.tryCatch _ _ (c.push t) = _
    unfold EStateM.tryCatch Py.after
    rw [Py.bind_apply]
    cases body (c.push t) with
    | ok v d => exact ⟨_, rfl⟩
    | error e d =>
      by_cases he : e = .unreachable
      · refine ⟨if P.implies d.assertions (.lit false) then .panic else .failed, ?_⟩
        simp only [if_pos he, Py.pathConditionImplies_bind]
        show (if P.implies d.assertions (.lit false) = true then Pure.pure Outcome.panic
          else Pure.pure Outcome.failed : Py Outcome) d = _
        split
        · rfl
        · rfl
      · refine ⟨.raised e, ?_⟩
        simp only [if_neg he]
        rfl
  obtain ⟨out, hout⟩ := htry
  have hpush : (modify fun c : Ctx => c.push t : Py Unit) c = .ok () (c.push t) := rfl
  rw [runBody, after_bind_of_ok hpush, after_bind_of_ok hout]
  cases out <;> rfl

/-- From every context the evaluation is a run of acts. -/
def Traced {α : Type} (P : Lib) (x : Py α) : Prop := ∀ c, ∃ as, x.after c = execAll P as c

namespace Traced

variable {α β : Type}

theorem ofOp {x : Py α} (o : Op) (h : x.after = (o.run P).after) : Traced P x := by
  intro c
  refine ⟨[.op o], ?_⟩
  rw [h, execAll, execAll, Act.exec]

theorem pure (a : α) : Traced P (pure a : Py α) := fun _ => ⟨[], by rw [execAll]; rfl⟩

theorem throw (e : Exc) : Traced P (throw e : Py α) := fun _ => ⟨[], by rw [execAll]; rfl⟩

theorem get : Traced P (get : Py Ctx) := fun _ => ⟨[], by rw [execAll]; rfl⟩

theorem bind {x : Py α} {f : α → Py β} (hx : Traced P x) (hf : ∀ a, Traced P (f a)) :
    Traced P (x >>= f) := by
  intro c
  obtain ⟨as, has⟩ := hx c
  unfold Py.after at has ⊢
  rw [Py.bind_apply]
  cases hrun : x c with
  | error e d =>
    rw [hrun] at has
    exact ⟨as, has⟩
  | ok a d =>
    rw [hrun] at has
    obtain ⟨bs, hbs⟩ := hf a d
    refine ⟨as ++ bs, ?_⟩
    rw [execAll_append, ← has]
    exact hbs

theorem ite {p : Prop} [Decidable p] {x y : Py α} (hx : Traced P x) (hy : Traced P y) :
    Traced P (if p then x else y) := by
  split
  · exact hx
  · exact hy

theorem ofExcept (e : Except Exc α) : Traced P (ofExcept e) := by
  cases e
  · exact throw _
  · exact pure _

theorem check (b : Bool) : Traced P (check b) := by
  cases b
  · exact throw _
  · exact pure _

theorem integerSize (t : Ty) : Traced P (integerSize t) := by
  cases t
  case int => exact pure _
  all_goals exact throw _

theorem pathConditionImplies (t : Term .bool) : Traced P (pathConditionImplies P t) :=
  get.bind fun _ => pure _

theorem modifyScope (f : Ctx → Scope) :
    Traced P (modify fun c : Ctx => { c with toScope := f c } : Py Unit) :=
  ofOp (.scope f) rfl

theorem load (returnType : Ty) (target : Obj) (type : Ty) :
    Traced P (load P returnType target type) :=
  ofOp (.load returnType target type) (funext fun c => (after_ignore _ c).symm)

theorem store (returnType : Ty) (target : Obj) (type : Ty) (dest : Obj) (destType : Ty) :
    Traced P (store P returnType target type dest destType) :=
  ofOp (.store returnType target type dest destType) rfl

theorem getElementPtr (returnType : Ty) (target : Obj) (idxs : List Value) :
    Traced P (getElementPtr P returnType target idxs) :=
  ofOp (.getElementPtr returnType target idxs) (funext fun c => (after_ignore _ c).symm)

theorem alloca (type : Ty) : Traced P (alloca P type) :=
  ofOp (.alloca type) (funext fun c => (after_ignore _ c).symm)

/-- A body is evaluated between a `push` and its `pop`. -/
theorem runBody {body : Py (Option Obj)} (h : Traced P body) (t : Term .bool) :
    Traced P (runBody P t body) := by
  intro c
  obtain ⟨as, has⟩ := h (c.push t)
  refine ⟨[.inside t as], ?_⟩
  rw [execAll, execAll, Act.exec, ← has, after_runBody]

theorem mergeCtx (t : Term .bool) (c d : Scope) : Traced P (mergeCtx P t c d) :=
  (ofExcept _).bind fun _ => (modifyScope _).bind fun _ => (ofExcept _).bind fun _ =>
    (modifyScope _).bind fun _ => (ofExcept _).bind fun _ => modifyScope _

theorem finishBranch (out : Outcome) (sc : Scope) : Traced P (finishBranch out sc) := by
  refine (modifyScope _).bind fun _ => ?_
  cases out
  case returned => exact pure _
  case raised => exact throw _
  all_goals exact pure _

theorem mergeBranch (cond scond : Term .bool) (t f : Outcome × Scope) :
    Traced P (mergeBranch P cond scond t f) := by
  refine (mergeCtx _ _ _).bind fun _ => ?_
  split
  · exact throw _
  · exact throw _
  · exact pure _
  · exact (ofExcept _).bind fun _ => pure _
  · exact throw _
  · exact throw _

theorem joinBranches (cond scond : Term .bool) (t f : Option (Outcome × Scope)) :
    Traced P (match t, f with
      | none, none => MonadExcept.throw Exc.unreachable
      | some t, none => Irpy.finishBranch t.1 t.2
      | none, some f => Irpy.finishBranch f.1 f.2
      | some t, some f => Irpy.mergeBranch P cond scond t f) := by
  split
  · exact Traced.throw _
  · exact Traced.finishBranch _ _
  · exact Traced.finishBranch _ _
  · exact Traced.mergeBranch _ _ _ _

theorem branch (cond : Value) (condType : Ty) {iftrue iffalse : Py (Option Obj)}
    (ht : Traced P iftrue) (hf : Traced P iffalse) :
    Traced P (branch P cond condType iftrue iffalse) := by
  have hbody : ∀ {body : Py (Option Obj)} (hb : Traced P body) (t : Term .bool),
      Traced P (some <$> Irpy.runBody P t body) :=
    fun hb t => (Traced.runBody hb t).bind fun _ => Traced.pure _
  refine (Traced.check _).bind fun _ => (Traced.integerSize _).bind fun _ =>
    (Traced.check _).bind fun _ => (Traced.ofExcept _).bind fun scond =>
    (Traced.pathConditionImplies _).bind fun _ => (Traced.pathConditionImplies _).bind fun _ => ?_
  refine Traced.ite ((hbody ht _).bind fun t => ?_) ((Traced.pure _).bind fun t => ?_)
  · refine Traced.ite ((hbody hf _).bind fun f => ?_) ((Traced.pure _).bind fun f => ?_)
    · exact Traced.joinBranches _ _ _ _
    · exact Traced.joinBranches _ _ _ _
  · refine Traced.ite ((hbody hf _).bind fun f => ?_) ((Traced.pure _).bind fun f => ?_)
    · exact Traced.joinBranches _ _ _ _
    · exact Traced.joinBranches _ _ _ _

theorem switch (value : Value) (valueType : Ty) {default : Py (Option Obj)}
    (hdefault : Traced P default) (cases : List (Value × Ty × Py (Option Obj)))
    (hcases : ∀ x ∈ cases, Traced P x.2.2) :
    Traced P (switch P value valueType default cases) := by
  induction cases with
  | nil => exact hdefault
  | cons x cases ih =>
    refine (check _).bind fun _ => (ofExcept _).bind fun _ => branch _ _ ?_ (ih ?_)
    · exact hcases x (List.mem_cons_self ..)
    · exact fun y hy => hcases y (List.mem_cons_of_mem _ hy)

end Traced

/-- Every `pop` of a run restores the path condition and the solver, and the path condition behind
the run has, apart from what was there before, only assumptions made outside of all branches, so that
it is satisfiable if those are, if and only if nothing is assumed in any branch: no operation there
initialises a pointer. -/
theorem restores_iff_disciplined (P : Lib) (as : List Act) (c : Ctx) :
    RestoresAll P as c ∧
      (execAll P as c).pathCondition = c.pathCondition ++ outerAssumptions P as c ↔
        DisciplinedAll P as c := by
  obtain ⟨ps, hps, -, -, hdisc⟩ := acts_grow (P := P) as c
  rw [hps.pathCondition, List.append_cancel_left_eq, hdisc, acts_restore_iff, and_self_iff]

/-- The two bodies of a branch create a pointer each. -/
theorem exists_not_restores :
    ∃ (P : Lib) (as : List Act), outerAssumptions P as .new = [] ∧ ¬RestoresAll P as .new ∧
      ¬∃ σ, Holds σ (execAll P as .new).pathCondition := by
  let b : Term .bool := .var "b" .bool
  let field (n : Nat) : Op := .pointer ⟨"@x", .pointer (.int 64)⟩ [[.bvVal 64 n]] (.pointer (.int 64))
  refine ⟨Lib.ideal, [.inside b [.op (field 0)], .inside b.not [.op (field 1)]], rfl, ?_, ?_⟩
  · intro h
    have hpc : [b] = [] := h.1.2.1
    cases hpc
  · rintro ⟨σ, hσ⟩
    have hpc : Holds σ [b, b.not] := hσ
    have hb : b.eval σ = true := hpc b (by simp)
    have hnot : b.not.eval σ = true := hpc b.not (by simp)
    rw [Term.eval_not, hb] at hnot
    cases hnot

end

end L4Thread.Irpy
