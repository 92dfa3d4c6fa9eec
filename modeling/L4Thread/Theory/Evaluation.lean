import L4Thread.Irpy.Function
import L4Thread.Theory.Branch

/-!
# Evaluation of emitted functions

The evaluator runs the emitted Python of a function on terms. Where it returns, the term that it
returns has, under every assignment that satisfies the assertions of the solver, the value that the
language gives to the call: for functions with branches, switches, phis and calls of each other.
-/

namespace L4Thread.Irpy

open Smt Llvm PyInstVisitor

/-! ## The evaluator on emitted Python -/

/-- `ctx.stack[key]`; the first dictionary of `locals` is the innermost one. -/
def readStack (key : String) : Py Obj := do
  match (← get).locals with
  | [] => throw .index
  | frame :: _ =>
    match frame.lookup key with
    | none => throw .key
    | some o => pure o

/-- `ctx.stack[key] = o`. -/
def writeStack (key : String) (o : Obj) : Py Unit := do
  match (← get).locals with
  | [] => throw .index
  | frame :: frames => modify fun c => { c with locals := frame.insert key o :: frames }

def PyExpr.run : PyExpr LlvmInt → Py Obj
  | .stack key => readStack key
  | .call c => pure (.expr (constantInt c.2.toNat c.1))

/-- An operand. An object that is not a term raises an exception. -/
def runOperand (val : Operand) : Py Value := do asValue (← (get val).run)

section

variable (P : Lib)

/-- The call of the evaluator for an instruction. -/
def runInstr : {w : Nat} → Instr (fun _ => Value) w → Py Value
  | w, .bin op a b => evalBin P op w a b
  | _, .icmp (w := w) p a b => evalPred P p w a b
  | w, .trunc (v := v) _ _ a => trunc (.int w) a (.int v)
  | w, .zext (v := v) _ _ a => zext P (.int w) a (.int v)
  | w, .sext (v := v) _ _ a => sext P (.int w) a (.int v)
  | w, .select c a b => do
    asValue (← select P (.int w) c (.int 1) (.expr a) (.int w) (.expr b) (.int w))

/-- `itypes.has_type` of a term. -/
def hasType (v : Value) (w : Nat) : Bool := v.size == w

/-- The statement of an instruction. `None` as the value of a name is left out. -/
def runOp (call : String → List Value → Py (Option Obj)) (dst : Option String) :
    IntOp → Py Unit
  | .instr i => do
    let v ← runInstr P (← i.mapM fun {_} val => runOperand val)
    match dst with
    | none => pure ()
    | some dst => writeStack dst (.expr v)
  | .call callee args => do
    let vs ← args.mapM fun a => do
      let v ← runOperand a.2
      check (hasType v a.1)
      pure v
    match dst, ← call (name callee) vs with
    | none, _ => pure ()
    | some dst, some o => writeStack dst o
    | some _, none => throw .attribute

def runStmt (call : String → List Value → Py (Option Obj)) (pred : Option String) :
    PyStmt LlvmInt IntOp → Py Unit
  | .phi dst phimap =>
    match pred.bind (dictLookup phimap) with
    | none => throw .key
    | some e => do writeStack dst (← e.run)
  | .instruction dst op => runOp P call dst op

/-- The assignments of the arguments at the start of a function. -/
def bindStack : List (String × Nat) → List Value → Py Unit
  | [], [] => pure ()
  | (x, w) :: args, v :: vs => do
    check (hasType v w)
    writeStack x (.expr v)
    bindStack args vs
  | _, _ => throw .typeError

/-- An evaluation on a dictionary of its own. -/
def inFrame {α : Type} (x : Py α) : Py α := fun c =>
  match x { c with locals := ∅ :: c.locals } with
  | .ok a d => .ok a { d with locals := d.locals.tail }
  | .error e d => .error e { d with locals := d.locals.tail }

/-- `call` of a function among the globals; one that is only declared fails. -/
def callGlobal (run : PyFunction → Py (Option Obj)) (m : PyModule) (callee : String)
    (args : List Value) : Py (Option Obj) := do
  match (← get).globals.lookup callee with
  | none => throw .key
  | some (.func g) =>
    match dictLookup m g with
    | none => throw .assertion
    | some f => inFrame do
      bindStack f.args args
      run f
  | some _ => throw .typeError

/-- A block function, and what it returns of the next ones; there are so many calls below the limit
of the recursion. -/
def runBlock (m : PyModule) : Nat → PyFunction → String → Option String → Py (Option Obj)
  | 0, _, _, _ => throw .runtime
  | n + 1, f, bb, pred =>
    match dictLookup f.blocks bb with
    | none => throw .key
    | some b => do
      b.body.forM (runStmt P (callGlobal (fun g => runBlock m n g g.entry none) m) pred)
      match b.term with
      | .ret none => pure none
      | .ret (some e) => do return some (← e.run)
      | .goto bb pred => runBlock m n f bb (some pred)
      | .branch cond iftrue iffalse pred => do
        branch P (← asValue (← cond.run)) (.int 1) (runBlock m n f iftrue (some pred))
          (runBlock m n f iffalse (some pred))
      | .switch (w := w) e default cases pred => do
        switch P (← asValue (← e.run)) (.int w) (runBlock m n f default (some pred))
          (cases.map fun x =>
            (constantInt x.1.toNat w, .int w, runBlock m n f x.2 (some pred)))
      | .unreachable => throw .unreachable

/-- The call of a function of the module. -/
def callFunction (m : PyModule) (n : Nat) : String → List Value → Py (Option Obj) :=
  callGlobal (fun g => runBlock P m n g g.entry none) m

end

/-! ## Evaluations without effects -/

/-- The exception of an unreachable branch is not raised. -/
def Handled {α : Type} (x : Except Exc α) : Prop := x ≠ .error .unreachable

namespace Handled

variable {α β : Type} {P : Lib}

theorem ok (a : α) : Handled (.ok a) := by
  rintro ⟨⟩

theorem error {e : Exc} (h : e ≠ .unreachable) : Handled (.error e : Except Exc α) := by
  rintro ⟨⟩
  exact h rfl

theorem bind {x : Except Exc α} {f : α → Except Exc β} (hx : Handled x) (hf : ∀ a, Handled (f a)) :
    Handled (x >>= f) := by
  cases x with
  | error e => exact error fun h => hx (by rw [h])
  | ok a => exact hf a

theorem ite {p : Prop} [Decidable p] {x y : Except Exc α} (hx : Handled x) (hy : Handled y) :
    Handled (if p then x else y) := by
  split
  · exact hx
  · exact hy

theorem dite {p : Prop} [Decidable p] {x : p → Except Exc α} {y : ¬p → Except Exc α}
    (hx : ∀ h, Handled (x h)) (hy : ∀ h, Handled (y h)) : Handled (if h : p then x h else y h) := by
  split
  · exact hx _
  · exact hy _

theorem foldlM {f : β → α → Except Exc β} (hf : ∀ b a, Handled (f b a)) (as : List α) (b : β) :
    Handled (as.foldlM f b) := by
  induction as generalizing b with
  | nil => exact ok _
  | cons a as ih =>
    rw [List.foldlM_cons]
    exact (hf b a).bind ih

theorem mapM {f : α → Except Exc β} (hf : ∀ a, Handled (f a)) (as : List α) :
    Handled (as.mapM f) := by
  induction as with
  | nil => exact ok _
  | cons a as ih =>
    rw [List.mapM_cons]
    exact (hf a).bind fun _ => ih.bind fun _ => ok _

/-! ### Comparison and conditional of objects -/

theorem termEq (a b : Value) : Handled (termEq a b) := ite (ok _) (error (by decide))

theorem tupleEq : ∀ as bs : List Value, Handled (tupleEq as bs)
  | [], [] | [], _ :: _ | _ :: _, [] => ok _
  | a :: as, b :: bs => (termEq a b).bind fun _ => ite (tupleEq as bs) (ok _)

theorem listEq {eq : α → α → Except Exc Bool} (h : ∀ a b, Handled (eq a b)) :
    ∀ as bs : List α, Handled (listEq eq as bs)
  | [], [] | [], _ :: _ | _ :: _, [] => ok _
  | a :: as, b :: bs => (h a b).bind fun _ => ite (listEq h as bs) (ok _)

theorem gepsEq (gs hs : Geps) : Handled (gepsEq gs hs) := ite (listEq tupleEq gs hs) (ok _)

theorem castGepsEq (gs hs : List (List Value × Ty)) : Handled (castGepsEq gs hs) :=
  ite (listEq (fun _ _ => (tupleEq _ _).bind fun _ => ite (ok _) (ok _)) gs hs) (ok _)

theorem pointerEq (p q : Pointer) : Handled (p.eq P q) := by
  unfold Pointer.eq
  split
  · exact (gepsEq _ _).bind fun _ => ite (ok _) (ok _)
  · exact ok _

theorem definitelyEqual (a b : Obj) : Handled (definitelyEqual P a b) := by
  unfold Irpy.definitelyEqual
  split
  · exact ite (ok _) (dite (fun _ => ok _) fun _ => error (by decide))
  · exact ite (ok _) (pointerEq _ _)
  · exact ite (ok _) (ite ((pointerEq _ _).bind fun _ => ite (castGepsEq _ _) (ok _)) (ok _))
  · exact ok _

theorem ifValue (cond : Term .bool) (a b : Value) : Handled (ifValue P cond a b) :=
  ite (ok _) (ite (ok _) (ite (error (by decide))
    ((definitelyEqual _ _).bind fun _ => ite (ok _) (dite (fun _ => ok _) fun _ => error (by decide)))))

theorem ifName (cond : Term .bool) (a : Term (.bv 64)) (b : Value) : Handled (ifName P cond a b) :=
  (ifValue _ _ _).bind fun _ => dite (fun _ => ok _) fun _ => error (by decide)

theorem iteObj (p : Pointer) (o : Obj) (cond : Term .bool) : Handled (p.iteObj P o cond) := by
  unfold Pointer.iteObj
  split
  · exact (ifName _ _ _).bind fun _ => dite (fun _ => ok _) fun _ => error (by decide)
  · exact (ifName _ _ _).bind fun _ => ok _
  · exact error (by decide)

theorem If (cond : Term .bool) (a b : Obj) : Handled (If P cond a b) := by
  unfold Irpy.If
  split
  · exact (ifValue _ _ _).bind fun _ => ok _
  · refine ite (ok _) (ite (ok _) ((definitelyEqual _ _).bind fun _ => ite (ok _) ?_))
    split
    · exact (iteObj _ _ _).bind fun _ => ok _
    · refine ite (ok _) ?_
      split
      · exact error (by decide)
      · exact error (by decide)

theorem mergeDict {κ : Type} [DecidableEq κ] {m : α → α → Except Exc α}
    (h : ∀ a b, Handled (m a b)) (d e : Dict κ α) : Handled (mergeDict m d e) := by
  refine foldlM (fun out k => ?_) _ _
  split
  · exact (h _ _).bind fun _ => ok _
  · exact ok _
  · exact ok _
  · exact ok _

theorem mergeList {m : α → α → Except Exc α} (h : ∀ a b, Handled (m a b)) (as bs : List α) :
    Handled (mergeList m as bs) := ite (mapM (fun _ => h _ _) _) (error (by decide))

/-! ### Operators -/

theorem sameWidth (a b : Value) (f : {w : Nat} → Term (.bv w) → Term (.bv w) → α) :
    Handled (sameWidth a b f) := by
  unfold Irpy.sameWidth
  split
  · exact dite (fun _ => ok _) fun _ => error (by decide)
  · exact error (by decide)

theorem eqTerm (a b : Value) : Handled (eqTerm a b) := dite (fun _ => ok _) fun _ => error (by decide)

theorem boolTerm (v : Value) : Handled (boolTerm v) := by
  unfold Irpy.boolTerm
  split
  · exact ok _
  · exact error (by decide)

theorem asBool (v : Value) : Handled (asBool P v) := by
  unfold Irpy.asBool
  split
  · exact ok _
  · exact ok _
  · exact error (by decide)

end Handled

/-! ## Evaluations that do not end in an unreachable block -/

def Lands {α : Type} (x : Py α) : Prop := ∀ c d, x c ≠ .error .unreachable d

namespace Lands

variable {α β : Type} {P : Lib}

theorem pure (a : α) : Lands (pure a : Py α) := nofun

theorem throw {e : Exc} (h : e ≠ .unreachable) : Lands (throw e : Py α) := by
  intro c d hrun
  cases hrun
  exact h rfl

theorem bind {x : Py α} {f : α → Py β} (hx : Lands x) (hf : ∀ a, Lands (f a)) :
    Lands (x >>= f) := by
  intro c d hrun
  rw [Py.bind_apply] at hrun
  split at hrun
  · exact hf _ _ _ hrun
  · rename_i e d' hx'
    cases hrun
    exact hx c d hx'

theorem get : Lands (get : Py Ctx) := nofun

theorem modify (f : Ctx → Ctx) : Lands (modify f : Py Unit) := nofun

theorem ofExcept {e : Except Exc α} (h : Handled e) : Lands (ofExcept e) := by
  cases e with
  | error e => exact throw fun he => h (by rw [he])
  | ok a => exact pure a

theorem check (b : Bool) : Lands (check b) := by
  cases b
  · exact throw (by decide)
  · exact pure _

theorem mergeCtx (cond : Term .bool) (sc sc' : Scope) : Lands (mergeCtx P cond sc sc') := by
  have hdict : ∀ d e : Dict String Obj, Handled (mergeDict (Irpy.If P cond) d e) :=
    Handled.mergeDict (Handled.If cond)
  refine (ofExcept (hdict _ _)).bind fun _ => (modify _).bind fun _ => ?_
  refine (ofExcept (Handled.mergeList hdict _ _)).bind fun _ => (modify _).bind fun _ => ?_
  have hfield : ∀ d e : Dict (List Nat) Obj, Handled (mergeDict (Irpy.If P cond) d e) :=
    Handled.mergeDict (Handled.If cond)
  exact (ofExcept (Handled.mergeDict hfield _ _)).bind fun _ => modify _

theorem writeStack (key : String) (o : Obj) : Lands (writeStack key o) := by
  refine get.bind fun c => ?_
  split
  · exact throw (by decide)
  · exact modify _

end Lands

/-! ## Evaluations that only count -/

/-- Of the context nothing is changed but the counters of `fresh_name`. -/
structure Inert {α : Type} (x : Py α) : Prop where
  after : ∀ c, ∃ freshIdx, x.after c = { c with freshIdx }
  lands : Lands x

namespace Inert

variable {α β : Type} {P : Lib}

theorem pure (a : α) : Inert (pure a : Py α) := ⟨fun c => ⟨c.freshIdx, rfl⟩, .pure a⟩

theorem throw {e : Exc} (h : e ≠ .unreachable) : Inert (throw e : Py α) :=
  ⟨fun c => ⟨c.freshIdx, rfl⟩, .throw h⟩

theorem bind {x : Py α} {f : α → Py β} (hx : Inert x) (hf : ∀ a, Inert (f a)) :
    Inert (x >>= f) where
  after c := by
    obtain ⟨idx, hidx⟩ := hx.after c
    unfold Py.after at hidx ⊢
    rw [Py.bind_apply]
    cases hrun : x c with
    | error e d =>
      rw [hrun] at hidx
      exact ⟨idx, hidx⟩
    | ok a d =>
      rw [hrun] at hidx
      obtain ⟨idx', hidx'⟩ := (hf a).after d
      dsimp only at hidx
      subst hidx
      exact ⟨idx', hidx'⟩
  lands := hx.lands.bind fun a => (hf a).lands

theorem get : Inert (get : Py Ctx) := ⟨fun c => ⟨c.freshIdx, rfl⟩, .get⟩

theorem ofExcept {e : Except Exc α} (h : Handled e) : Inert (ofExcept e) := by
  cases e with
  | error e => exact throw fun he => h (by rw [he])
  | ok a => exact pure a

theorem check (b : Bool) : Inert (check b) := by
  cases b
  · exact throw (by decide)
  · exact pure _

theorem pathConditionImplies (t : Term .bool) : Inert (pathConditionImplies P t) :=
  get.bind fun _ => pure _

theorem freshName (name : String) : Inert (freshName name) :=
  ⟨fun _ => ⟨_, rfl⟩, Lands.get.bind fun _ => (Lands.modify _).bind fun _ => .pure _⟩

theorem ite {p : Prop} [Decidable p] {x y : Py α} (hx : Inert x) (hy : Inert y) :
    Inert (if p then x else y) := by
  split
  · exact hx
  · exact hy

/-! ### Instructions -/

theorem checkTypes (r a b : Ty) : Inert (checkTypes r a b) := (check _).bind fun _ => check _

theorem getPoison (w : Nat) : Inert (getPoison w) :=
  (freshName _).bind fun _ => ite (pure _) (pure _)

variable (t : Ty) (a b : Value) (f : Flags)

theorem flag (flag signed : Bool) {x : Py Value} (hx : Inert x) :
    Inert (if flag then do
        let t ← Irpy.ofExcept (bvaddNoOverflow a b signed)
        let ok ← Irpy.pathConditionImplies P t
        Irpy.check ok
        x
      else x) :=
  ite ((ofExcept (.sameWidth _ _ _)).bind fun _ => (pathConditionImplies _).bind fun _ =>
    (check _).bind fun _ => hx) hx

theorem bvBin (op : BvOp) : Inert (Irpy.ofExcept (bvBin op a b)) := ofExcept (.sameWidth _ _ _)

theorem add : Inert (add P t a t b t f) :=
  (checkTypes _ _ _).bind fun _ => flag a b _ _ (flag a b _ _ (bvBin _ _ _))

theorem plain (op : BvOp) : Inert (plain op t a t b t f) :=
  (checkTypes _ _ _).bind fun _ => (check _).bind fun _ => bvBin _ _ _

theorem division (op : BvOp) : Inert (division P op t a t b t f) :=
  (checkTypes _ _ _).bind fun _ => (check _).bind fun _ => (ofExcept (.eqTerm _ _)).bind fun _ =>
    (pathConditionImplies _).bind fun _ => (check _).bind fun _ => bvBin _ _ _

theorem shift (op : BvOp) : Inert (shift P op t a t b t f) := by
  have hrun : Inert (do
      let cond ← Irpy.ofExcept (bvCmp .ult b (.bvVal t.size t.size))
      let cond ← Irpy.ofExcept (boolTerm cond)
      let shifted ← Irpy.ofExcept (Irpy.bvBin op a b)
      let poison ← Irpy.getPoison t.size
      let v ← Irpy.ofExcept (ifValue P cond shifted poison)
      Pure.pure (⟨v.sort, partialEval P (← MonadState.get).assertions v.term⟩ : Value)) :=
    (ofExcept (.sameWidth _ _ _)).bind fun _ => (ofExcept (.boolTerm _)).bind fun _ =>
      (bvBin _ _ _).bind fun _ => (getPoison _).bind fun _ =>
        (ofExcept (.ifValue _ _ _)).bind fun _ => get.bind fun _ => pure _
  have hchecked := (checkTypes t t t).bind fun _ => (check (!f.nuw && !f.nsw)).bind fun _ => hrun
  exact ite ((throw (e := .typeError) (by decide)).bind fun _ => hchecked) hchecked

theorem logical (bop : Term .bool → Term .bool → Term .bool) (op : BvOp) :
    Inert (logical P bop op t a t b t) :=
  (checkTypes _ _ _).bind fun _ => ite
    ((ofExcept (.asBool _)).bind fun _ => (ofExcept (.asBool _)).bind fun _ =>
      (check _).bind fun _ => pure _)
    (bvBin _ _ _)

theorem evalBin (op : BinOp) (w : Nat) : Inert (evalBin P op w a b) := by
  cases op with
  | add => exact add _ _ _ _
  | sub | mul => exact plain _ _ _ _ _
  | udiv | sdiv | urem | srem => exact division _ _ _ _ _
  | shl nuw nsw => exact shift (.int w) a b ⟨nuw, nsw, false⟩ .shl
  | lshr exact => exact shift (.int w) a b ⟨false, false, exact⟩ .lshr
  | ashr exact => exact shift (.int w) a b ⟨false, false, exact⟩ .ashr
  | and | or | xor => exact logical _ _ _ _ _

theorem compare (op : BvCmp) : Inert (compare op a t b t) :=
  (check _).bind fun _ => ofExcept (.sameWidth _ _ _)

theorem eq (t : Ty) (a b : Obj) : Inert (eq P a t b t) := by
  unfold Irpy.eq
  split
  · exact (ofExcept (.eqTerm _ _)).bind fun _ => pure _
  · exact (ofExcept (.eqTerm _ _)).bind fun _ => pure _
  · exact (check _).bind fun _ => (ofExcept (.eqTerm _ _)).bind fun _ => pure _
  · exact (check _).bind fun _ => (ofExcept (.pointerEq _ _)).bind fun _ => pure _
  · exact (check _).bind fun _ => pure _
  · exact throw (by decide)

theorem ne (t : Ty) (a b : Obj) : Inert (ne P a t b t) :=
  (eq t a b).bind fun _ => (ofExcept (.boolTerm _)).bind fun _ => pure _

theorem evalPred (p : Pred) (w : Nat) : Inert (evalPred P p w a b) := by
  cases p with
  | eq => exact eq _ _ _
  | ne => exact ne _ _ _
  | _ => exact compare _ _ _ _

theorem integerSize (t : Ty) : Inert (integerSize t) := by
  cases t with
  | int w => exact pure _
  | _ => exact throw (by decide)

theorem trunc (r t : Ty) (a : Value) : Inert (trunc r a t) := by
  refine (integerSize _).bind fun _ => (integerSize _).bind fun _ => (check _).bind fun _ => ?_
  obtain ⟨s, u⟩ := a
  cases s with
  | bv w => exact ite (pure _) (throw (by decide))
  | _ => exact throw (by decide)

theorem zext (r t : Ty) (a : Value) : Inert (zext P r a t) := by
  refine (integerSize _).bind fun _ => (integerSize _).bind fun _ => (check _).bind fun _ => ?_
  obtain ⟨s, u⟩ := a
  cases s with
  | bool => exact ofExcept (.ifValue _ _ _)
  | bv w => exact pure _
  | args => exact throw (by decide)

theorem sext (r t : Ty) (a : Value) : Inert (sext P r a t) := by
  refine (integerSize _).bind fun _ => (integerSize _).bind fun _ => (check _).bind fun _ => ?_
  obtain ⟨s, u⟩ := a
  cases s with
  | bool => exact ofExcept (.ifValue _ _ _)
  | bv w => exact pure _
  | args => exact throw (by decide)

theorem select (t : Ty) (cond : Value) (condType : Ty) (a b : Obj) :
    Inert (select P t cond condType a t b t) :=
  (check _).bind fun _ => (integerSize _).bind fun _ => (check _).bind fun _ =>
    (check _).bind fun _ => (check _).bind fun _ => (ofExcept (.boolTerm _)).bind fun _ =>
      ofExcept (.If _ _ _)

theorem asValue (o : Obj) : Inert (asValue o) := by
  cases o with
  | expr v => exact pure v
  | _ => exact throw (by decide)

theorem runInstr {w : Nat} (i : Instr (fun _ => Value) w) : Inert (runInstr P i) := by
  cases i with
  | bin op a b => exact evalBin _ _ _ _
  | icmp p a b => exact evalPred _ _ _ _
  | trunc pos lt a => exact trunc _ _ _
  | zext pos lt a => exact zext _ _ _
  | sext pos lt a => exact sext _ _ _
  | select c a b => exact (select _ _ _ _ _).bind fun _ => asValue _

/-! ### Operands -/

theorem readStack (key : String) : Inert (readStack key) := by
  refine get.bind fun c => ?_
  split
  · exact throw (by decide)
  · split
    · exact throw (by decide)
    · exact pure _

theorem run (e : PyExpr LlvmInt) : Inert e.run := by
  cases e with
  | stack key => exact readStack key
  | call c => exact pure _

theorem runOperand (val : Operand) : Inert (runOperand val) := (run _).bind asValue

theorem mapM {α β : Nat → Type} {f : {w : Nat} → α w → Py (β w)}
    (hf : ∀ {w : Nat} (a : α w), Inert (f a)) {w : Nat} (i : Instr α w) : Inert (i.mapM f) := by
  cases i with
  | bin op a b | icmp p a b => exact (hf a).bind fun _ => (hf b).bind fun _ => pure _
  | trunc pos lt a | zext pos lt a | sext pos lt a => exact (hf a).bind fun _ => pure _
  | select c a b => exact (hf c).bind fun _ => (hf a).bind fun _ => (hf b).bind fun _ => pure _

end Inert

end L4Thread.Irpy
