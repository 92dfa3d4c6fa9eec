import L4Thread.Theory.Phi
import L4Thread.Theory.Preservation

/-!
# Soundness of emitted functions

The emitted Python of a module, run by the evaluator, returns terms that stand for what the functions
return. By induction on the depth of the calls: a block function is sound if the block functions and
the functions that it calls are.
-/

namespace L4Thread.Irpy

open Smt Llvm PyInstVisitor

variable {P : Lib} {σ : Env} {c d : Ctx} {w : Nat}

/-! ## Modules that are emitted without collisions -/

def IntOp.Faithful : IntOp → Prop
  | .instr i => Irpy.Faithful i
  | .call _ _ => True

namespace LlvmFunction

def registers (f : LlvmFunction) : List String :=
  f.args.map Prod.fst ++ f.blocks.flatMap fun b =>
    b.2.block.phis.map PhiNode.name ++ b.2.block.instructions.filterMap Instruction.result

/-- The emitter keeps the names of the function apart, no phi takes the value of an earlier one, and
the evaluator has the meaning of the instructions. -/
structure Emittable (f : LlvmFunction) : Prop where
  registers : NamesDistinct f.registers
  blocks : (f.blocks.map fun b => blockName b.1).Nodup
  edges : ∀ b ∈ f.blocks, ∀ phi ∈ b.2.block.phis, ∀ e ∈ phi.incoming, ∀ e' ∈ phi.incoming,
    name e.1 = name e'.1 → e.2 = e'.2
  phis : ∀ b ∈ f.blocks, b.2.block.phis.Pairwise fun phi phi' => ∀ e ∈ phi'.incoming,
    e.2 ≠ .instruction phi.name ∧ e.2 ≠ .argument phi.name
  instructions : ∀ b ∈ f.blocks, ∀ i ∈ b.2.block.instructions, i.op.Faithful

end LlvmFunction

structure LlvmModule.Emittable (m : LlvmModule) : Prop where
  functions : ∀ f ∈ m, f.2.Emittable
  names : (m.map fun f => name f.1).Nodup

/-- The functions of the module are among the globals. -/
def HasFunctions (m : LlvmModule) (sc : Scope) : Prop :=
  ∀ f ∈ m, sc.globals.lookup (name f.1) = some (.func (name f.1))

theorem HasFunctions.kept {m : LlvmModule} {Γ : List (Term .bool)} {sc sc' : Scope}
    (h : HasFunctions m sc) (hkept : Kept Γ sc sc') : HasFunctions m sc' :=
  fun f hf => hkept.globals _ _ (h f hf)

theorem mem_of_lookup {α : Type} {entries : List (String × α)} {key : String} {a : α}
    (h : entries.lookup key = some a) : (key, a) ∈ entries := by
  induction entries with
  | nil => cases h
  | cons e entries ih =>
    rw [List.lookup_cons] at h
    split at h
    · rename_i heq
      cases h
      rw [eq_of_beq heq]
      exact List.mem_cons_self ..
    · exact List.mem_cons_of_mem _ (ih h)

/-- An entry of a literal whose keys are distinct. -/
theorem dictLookup_of_mem {α : Type} {entries : List (String × α)}
    (h : (entries.map Prod.fst).Nodup) {key : String} {a : α} (hmem : (key, a) ∈ entries) :
    dictLookup entries key = some a := by
  obtain ⟨b, hb⟩ := exists_dictLookup hmem
  have hb' := mem_of_dictLookup hb
  rw [hb, Option.some_inj]
  exact (Prod.mk.inj (List.inj_on_of_nodup_map h hb' hmem rfl)).2

/-- The emitted entry for a name. -/
theorem dictLookup_map_of_lookup {α β : Type} {entries : List (String × α)} {key : String} {a : α}
    {f : String → String} {g : String × α → β} (h : (entries.map fun e => f e.1).Nodup)
    (ha : entries.lookup key = some a) :
    dictLookup (entries.map fun e => (f e.1, g e)) (f key) = some (g (key, a)) := by
  refine dictLookup_of_mem ?_ (List.mem_map.2 ⟨(key, a), mem_of_lookup ha, rfl⟩)
  rw [List.map_map]
  exact h

/-! ## Statements -/

/-- What the statement does to the registers. -/
abbrev Effects := Env → Registers → Registers → Prop

/-- Behind a statement that returns, the dictionary stands for the registers behind it. -/
structure StmtSound (m : LlvmModule) (names : List String) (x : Py Unit) (R : Effects) : Prop where
  quiet : Quiet x
  kept : ∀ c d, AllTerms c.top → HasFunctions m c.toScope → x c = .ok () d →
    Kept c.assertions c.toScope d.toScope ∧ AllTerms d.top
  regs : ∀ c d, AllTerms c.top → HasFunctions m c.toScope → x c = .ok () d →
    ∀ σ regs regs', Holds σ c.assertions → RegsMatch names σ regs c.top → R σ regs regs' →
      RegsMatch names σ regs' d.top
  unreachable : ∀ c d, AllTerms c.top → HasFunctions m c.toScope → x c = .error .unreachable d →
    ∀ σ regs regs', Holds σ c.assertions → RegsMatch names σ regs c.top → ¬R σ regs regs'

theorem Quiet.of_inert {α : Type} {x : Py α} (h : Inert x) : Quiet x := by
  intro c
  obtain ⟨idx, hidx⟩ := h.after c
  rw [hidx]
  exact ⟨(List.append_nil _).symm, rfl, rfl, rfl⟩

theorem Quiet.writeStack (key : String) (o : Obj) : Quiet (writeStack key o) := by
  refine get.bind fun c => ?_
  split
  · exact throw _
  · exact modifyScope _

theorem eq_of_inert {α : Type} {x : Py α} (hx : Inert x) {a : α} (h : x c = .ok a d) :
    ∃ freshIdx, d = { c with freshIdx } := by
  obtain ⟨idx, hidx⟩ := hx.after c
  rw [Py.after, h] at hidx
  exact ⟨idx, hidx⟩

section

variable {m : LlvmModule} {names : List String} {x y : Py Unit} {R S : Effects}

theorem StmtSound.mono (h : StmtSound m names x R) (hSR : ∀ σ regs regs', S σ regs regs' →
    R σ regs regs') : StmtSound m names x S where
  quiet := h.quiet
  kept := h.kept
  regs c d ht hm hrun σ regs regs' hσ hregs hS := h.regs c d ht hm hrun σ regs regs' hσ hregs
    (hSR _ _ _ hS)
  unreachable c d ht hm hrun σ regs regs' hσ hregs hS := h.unreachable c d ht hm hrun σ regs regs'
    hσ hregs (hSR _ _ _ hS)

theorem assertions_of_ok {α : Type} {x : Py α} (hx : Quiet x) {a : α} (h : x c = .ok a d) :
    d.assertions = c.assertions := by
  have hafter := hx.assertions c
  rwa [Py.after, h] at hafter

/-- Nothing is done. -/
theorem StmtSound.nil : StmtSound m names (pure ()) fun _ regs regs' => regs' = regs where
  quiet := .pure ()
  kept c d ht _ hrun := by
    cases hrun
    exact ⟨.refl _, ht⟩
  regs c d _ _ hrun σ regs regs' _ hregs h := by
    cases hrun
    rw [h]
    exact hregs
  unreachable c d _ _ hrun := by cases hrun

/-- One statement behind the other. -/
theorem StmtSound.seq (hx : StmtSound m names x R) (hy : StmtSound m names y S) :
    StmtSound m names (x >>= fun _ => y) fun σ regs regs' =>
      ∃ mid, R σ regs mid ∧ S σ mid regs' where
  quiet := hx.quiet.bind fun _ => hy.quiet
  kept c d ht hm hrun := by
    obtain ⟨_, e, hrunx, hruny⟩ := Py.bind_eq_ok.1 hrun
    obtain ⟨hkept, ht'⟩ := hx.kept c e ht hm hrunx
    obtain ⟨hkept', ht''⟩ := hy.kept e d ht' (hm.kept hkept) hruny
    rw [assertions_of_ok hx.quiet hrunx] at hkept'
    exact ⟨hkept.trans hkept', ht''⟩
  regs c d ht hm hrun σ regs regs' hσ hregs := by
    rintro ⟨mid, hR, hS⟩
    obtain ⟨_, e, hrunx, hruny⟩ := Py.bind_eq_ok.1 hrun
    obtain ⟨hkept, ht'⟩ := hx.kept c e ht hm hrunx
    have hmid := hx.regs c e ht hm hrunx σ regs mid hσ hregs hR
    rw [← assertions_of_ok hx.quiet hrunx] at hσ
    exact hy.regs e d ht' (hm.kept hkept) hruny σ mid regs' hσ hmid hS
  unreachable c d ht hm hrun σ regs regs' hσ hregs := by
    rintro ⟨mid, hR, hS⟩
    rw [Py.bind_apply] at hrun
    split at hrun
    · rename_i e hrunx
      obtain ⟨hkept, ht'⟩ := hx.kept c e ht hm hrunx
      have hmid := hx.regs c e ht hm hrunx σ regs mid hσ hregs hR
      rw [← assertions_of_ok hx.quiet hrunx] at hσ
      exact hy.unreachable e d ht' (hm.kept hkept) hrun σ mid regs' hσ hmid hS
    · rename_i hrunx
      cases hrun
      exact hx.unreachable c d ht hm hrunx σ regs mid hσ hregs hR

/-- A list of statements. -/
theorem StmtSound.forM {α β : Type} {stmt : α → Py Unit} {step : Registers → β → Option Registers}
    {as : List α} {bs : List β}
    (h : List.Forall₂ (fun a b => StmtSound m names (stmt a) fun _ regs regs' =>
      step regs b = some regs') as bs) :
    StmtSound m names (as.forM stmt) fun _ regs regs' => bs.foldlM step regs = some regs' := by
  induction h with
  | nil => exact StmtSound.nil.mono fun _ _ _ h => (Option.some.inj h).symm
  | cons h _ ih =>
    refine (h.seq ih).mono fun σ regs regs' hfold => ?_
    rw [List.foldlM_cons] at hfold
    exact Option.bind_eq_some_iff.1 hfold

/-- A value that is assigned to a name. -/
theorem StmtSound.assign (hinj : NamesDistinct names) {dst : String} (hdst : dst ∈ names)
    {x : Py Obj} {V : Env → Registers → LlvmInt → Prop} (hx : Inert x)
    (hval : ∀ c o d, AllTerms c.top → x c = .ok o d → ∃ u, o = .expr u ∧
      ∀ σ regs v, Holds σ c.assertions → RegsMatch names σ regs c.top → V σ regs v →
        Stands σ u v) :
    StmtSound m names (x >>= fun o => writeStack (name dst) o) fun σ regs regs' =>
      ∃ v, V σ regs v ∧ regs' = Function.update regs dst (some v) := by
  have hok : ∀ {c d}, AllTerms c.top → (x >>= fun o => writeStack (name dst) o) c = .ok () d →
      ∃ u freshIdx, (∀ σ regs v, Holds σ c.assertions → RegsMatch names σ regs c.top →
        V σ regs v → Stands σ u v) ∧
      d = { c with locals := c.top.insert (name dst) (.expr u) :: c.locals.tail, freshIdx } := by
    intro c d ht hrun
    obtain ⟨o, e, hrunx, hwrite⟩ := Py.bind_eq_ok.1 hrun
    obtain ⟨u, rfl, hstands⟩ := hval c o e ht hrunx
    obtain ⟨idx, rfl⟩ := eq_of_inert hx hrunx
    exact ⟨u, idx, hstands, writeStack_eq_ok hwrite⟩
  constructor
  · exact (Quiet.of_inert hx).bind fun o => Quiet.writeStack _ _
  · intro c d ht _ hrun
    obtain ⟨u, idx, -, rfl⟩ := hok ht hrun
    exact ⟨⟨fun _ _ h => h, List.forall₂_same.2 fun e _ => .refl e⟩, ht.insert _ u⟩
  · intro c d ht _ hrun σ regs regs' hσ hregs hR
    obtain ⟨u, idx, hstands, rfl⟩ := hok ht hrun
    obtain ⟨v, hv, rfl⟩ := hR
    exact hregs.update hinj hdst (hstands σ regs v hσ hregs hv)
  · intro c d _ _ hrun
    exact absurd hrun ((hx.lands.bind fun o => .writeStack _ _) c d)

/-- A value that is not assigned. -/
theorem StmtSound.discard {α : Type} {x : Py α} (hx : Inert x) :
    StmtSound m names (x >>= fun _ => pure ()) fun _ regs regs' => regs' = regs where
  quiet := (Quiet.of_inert hx).bind fun _ => .pure ()
  kept c d ht _ hrun := by
    obtain ⟨_, e, hrunx, hpure⟩ := Py.bind_eq_ok.1 hrun
    obtain ⟨idx, rfl⟩ := eq_of_inert hx hrunx
    cases hpure
    exact ⟨.refl _, ht⟩
  regs c d ht _ hrun σ regs regs' _ hregs hR := by
    obtain ⟨_, e, hrunx, hpure⟩ := Py.bind_eq_ok.1 hrun
    obtain ⟨idx, rfl⟩ := eq_of_inert hx hrunx
    cases hpure
    rw [hR]
    exact hregs
  unreachable c d _ _ hrun := absurd hrun ((hx.lands.bind fun _ => .pure ()) c d)

/-- An instruction on integers. -/
theorem runOp_instr_sound (hinj : NamesDistinct names) {i : Instr (fun _ => Operand) w}
    (hi : Faithful i) {dst : Option String} (hdst : ∀ x ∈ dst, x ∈ names)
    (run : String → List Value → Py (Option Obj))
    (call : String → List LlvmInt → Option (Option LlvmInt)) :
    StmtSound m names (runOp P run (dst.map name) (.instr i)) fun _ regs regs' =>
      execOp call regs ⟨dst, .instr i⟩ = some regs' := by
  have hinert : Inert (i.mapM (fun {_} val => runOperand val) >>= fun j => runInstr P j) :=
    (Inert.mapM (fun val => .runOperand val) i).bind fun j => .runInstr j
  have hstands : ∀ {c u d}, AllTerms c.top →
      (i.mapM (fun {_} val => runOperand val) >>= fun j => runInstr P j) c = .ok u d →
      ∀ {σ regs v}, Holds σ c.assertions → RegsMatch names σ regs c.top →
        ((i.mapM fun {w} (val : Operand) => val.readAs regs w).bind Instr.exec) = some v →
          Stands σ u ⟨w, v⟩ := by
    intro c u d ht hrun σ regs v hσ hregs hv
    obtain ⟨i', e, hi', hrun⟩ := Py.bind_eq_ok.1 hrun
    obtain ⟨j, hj, hexec⟩ := Option.bind_eq_some_iff.1 hv
    obtain ⟨rfl, hoperands⟩ := exists_operands ht hi'
    obtain ⟨k, rfl, rfl, hk⟩ := hoperands hregs hj
    rw [runInstr_map] at hrun
    exact stands_of_evalInstr (hk hi) hσ hrun hexec
  cases dst with
  | none =>
    have heq : runOp P run none (.instr i) =
        (i.mapM (fun {_} val => runOperand val) >>= fun j => runInstr P j) >>= fun _ => pure () :=
      (bind_assoc ..).symm
    rw [Option.map_none, heq]
    refine (StmtSound.discard hinert).mono fun σ regs regs' h => ?_
    obtain ⟨j, hj, h⟩ := Option.bind_eq_some_iff.1 h
    obtain ⟨v, hv, h⟩ := Option.bind_eq_some_iff.1 h
    exact (Option.some.inj h).symm
  | some x =>
    have heq : runOp P run (some (name x)) (.instr i) =
        (i.mapM (fun {_} val => runOperand val) >>= fun j => runInstr P j) >>= fun v =>
          pure (.expr v) >>= fun o => writeStack (name x) o :=
      (bind_assoc ..).symm
    rw [Option.map_some, heq, ← bind_assoc]
    refine (StmtSound.assign (V := fun _ regs v => ∃ r, v = ⟨w, r⟩ ∧ ((i.mapM fun {w}
      (val : Operand) => val.readAs regs w).bind Instr.exec) = some r) hinj (hdst x rfl)
      (hinert.bind fun v => .pure _) fun c o d ht hrun => ?_).mono fun σ regs regs' h => ?_
    · obtain ⟨u, e, hu, ho⟩ := Py.bind_eq_ok.1 hrun
      cases ho
      refine ⟨u, rfl, fun σ regs v hσ hregs hv => ?_⟩
      obtain ⟨r, rfl, hr⟩ := hv
      exact hstands ht hu hσ hregs hr
    · obtain ⟨j, hj, h⟩ := Option.bind_eq_some_iff.1 h
      obtain ⟨v, hv, h⟩ := Option.bind_eq_some_iff.1 h
      exact ⟨⟨w, v⟩, ⟨v, rfl, Option.bind_eq_some_iff.2 ⟨j, hj, hv⟩⟩, (Option.some.inj h).symm⟩

/-- A statement that fails. -/
theorem StmtSound.throw {e : Exc} (he : e ≠ .unreachable) : StmtSound m names (throw e) R where
  quiet := .throw e
  kept c d _ _ hrun := by cases hrun
  regs c d _ _ hrun := by cases hrun
  unreachable c d _ _ hrun := absurd hrun (Lands.throw he c d)

/-! ### Phis -/

/-- A phi that takes its value from the registers as they are. -/
def stepPhi (pred : Option String) (regs : Registers) (phi : PhiNode LlvmInt) :
    Option Registers := do
  let val ← phi.incoming.lookup (← pred)
  let v ← val.read regs
  pure (Function.update regs phi.name (some v))

/-- Where no phi takes the value of an earlier one, the phis can take their values one by one. -/
theorem execPhis_eq {pred : Option String} {regs : Registers} {phis : List (PhiNode LlvmInt)}
    (h : phis.Pairwise fun phi phi' => ∀ e ∈ phi'.incoming,
      e.2 ≠ .instruction phi.name ∧ e.2 ≠ .argument phi.name) :
    execPhis pred regs phis = phis.foldlM (stepPhi pred) regs := by
  have hgeneral : ∀ regs', (∀ phi ∈ phis, ∀ e ∈ phi.incoming,
      e.2.read regs' = e.2.read regs) →
      phis.foldlM (fun regs' phi => do
        let val ← phi.incoming.lookup (← pred)
        let v ← val.read regs
        pure (Function.update regs' phi.name (some v))) regs' =
      phis.foldlM (stepPhi pred) regs' := by
    induction phis with
    | nil => exact fun _ _ => rfl
    | cons phi phis ih =>
      intro regs' hread
      obtain ⟨hphi, hphis⟩ := List.pairwise_cons.1 h
      rw [List.foldlM_cons, List.foldlM_cons, stepPhi]
      cases pred with
      | none => rfl
      | some bb =>
        cases hlookup : phi.incoming.lookup bb with
        | none => simp only [Option.bind_eq_bind, Option.bind_some, hlookup, Option.bind_none]
        | some val =>
          have hval := hread phi (List.mem_cons_self ..) _ (mem_of_lookup hlookup)
          dsimp only at hval
          simp only [Option.bind_eq_bind, Option.bind_some, hlookup, ← hval]
          cases val.read regs' with
          | none => rfl
          | some v =>
            refine ih hphis _ fun phi' hphi' e he => ?_
            obtain ⟨hinstr, harg⟩ := hphi phi' hphi' e he
            rw [← hread phi' (List.mem_cons_of_mem _ hphi') e he]
            cases hval' : e.2 with
            | instruction x => exact Function.update_of_ne (fun h => hinstr (by rw [hval', h])) ..
            | argument x => exact Function.update_of_ne (fun h => harg (by rw [hval', h])) ..
            | constant v => rfl
  exact hgeneral regs fun _ _ _ _ => rfl

theorem runStmt_phi_sound (hinj : NamesDistinct names) {phi : PhiNode LlvmInt}
    (hphi : phi.name ∈ names)
    (hedges : ∀ e ∈ phi.incoming, ∀ e' ∈ phi.incoming, name e.1 = name e'.1 → e.2 = e'.2)
    (run : String → List Value → Py (Option Obj)) (pred : Option String) :
    StmtSound m names (runStmt P run (pred.map currBb) (visitPHINode phi)) fun _ regs regs' =>
      stepPhi pred regs phi = some regs' := by
  rw [visitPHINode, runStmt]
  cases pred with
  | none => exact .throw (by decide)
  | some bb =>
    rw [Option.map_some, Option.bind_some]
    generalize hentry : dictLookup _ (currBb bb) = entry
    cases entry with
    | none => exact .throw (by decide)
    | some e =>
      obtain ⟨⟨bb', val⟩, hmem, heq⟩ := List.mem_map.1 (mem_of_dictLookup hentry)
      obtain ⟨hbb, rfl⟩ := Prod.mk.inj heq
      dsimp only
      refine (StmtSound.assign (V := fun _ regs v => val.read regs = some v) hinj hphi
        (Inert.run (get val)) fun c o d ht hrun => ?_).mono fun σ regs regs' h => ?_
      · obtain ⟨-, u, rfl, hstands⟩ := run_get ht hrun
        exact ⟨u, rfl, fun σ regs v _ hregs hv => hstands hregs hv⟩
      · obtain ⟨val', hval', h⟩ := Option.bind_eq_some_iff.1 h
        obtain ⟨v, hv, h⟩ := Option.bind_eq_some_iff.1 h
        have hsame : val' = val :=
          hedges _ (mem_of_lookup hval') _ hmem hbb.symm
        exact ⟨v, hsame ▸ hv, (Option.some.inj h).symm⟩

/-! ### Arguments and calls -/

/-- The arguments of a call stand for the integers that it binds. -/
theorem bindStack_sound (hinj : NamesDistinct names) {args : List (String × Nat)}
    (hargs : ∀ a ∈ args, a.1 ∈ names) (us : List Value) :
    StmtSound m names (bindStack (args.map fun a => (name a.1, a.2)) us) fun σ regs regs' =>
      ∃ vs, List.Forall₂ (Stands σ) us vs ∧ bindArgs regs args vs = some regs' := by
  induction args generalizing us with
  | nil =>
    cases us with
    | nil =>
      refine StmtSound.nil.mono fun σ regs regs' => ?_
      rintro ⟨vs, hvs, hbind⟩
      cases hvs
      exact (Option.some.inj hbind).symm
    | cons u us => exact .throw (by decide)
  | cons a args ih =>
    cases us with
    | nil => exact .throw (by decide)
    | cons u us =>
      have hvalue : ∀ c o d, AllTerms c.top →
          (check (hasType u a.2) >>= fun _ => pure (.expr u) : Py Obj) c = .ok o d →
            ∃ u', o = .expr u' ∧ ∀ σ regs v, Holds σ c.assertions →
              RegsMatch names σ regs c.top → Stands σ u v → Stands σ u' v := by
        intro c o d _ hrun
        obtain ⟨_, e, -, ho⟩ := Py.bind_eq_ok.1 hrun
        cases ho
        exact ⟨u, rfl, fun _ _ _ _ _ hv => hv⟩
      have hassign := StmtSound.assign (m := m) (V := fun σ _ v => Stands σ u v) hinj
        (hargs a (List.mem_cons_self ..)) ((Inert.check _).bind fun _ => .pure _) hvalue
      have hrest := hassign.seq (ih (fun b hb => hargs b (List.mem_cons_of_mem _ hb)) us)
      have heq : bindStack ((a :: args).map fun a => (name a.1, a.2)) (u :: us) =
          ((check (hasType u a.2) >>= fun _ => pure (.expr u)) >>= fun o =>
            writeStack (name a.1) o) >>= fun _ =>
              bindStack (args.map fun a => (name a.1, a.2)) us := by
        rw [List.map_cons, bindStack]
        simp only [bind_assoc, pure_bind]
      rw [heq]
      refine hrest.mono fun σ regs regs' => ?_
      rintro ⟨vs, hvs, hbind⟩
      cases hvs with
      | @cons _ v _ vs hv hvs =>
        rw [bindArgs] at hbind
        split at hbind
        · exact ⟨_, ⟨v, hv, rfl⟩, vs, hvs, hbind⟩
        · cases hbind

/-- A call leaves all dictionaries, and returns what stands for its result. -/
structure CallSound (m : LlvmModule) (run : String → List Value → Py (Option Obj))
    (call : String → List LlvmInt → Option LlvmInt → Prop) : Prop where
  quiet : ∀ callee us, Quiet (run callee us)
  kept : ∀ c o d callee us, HasFunctions m c.toScope → run (name callee) us c = .ok o d →
    Kept c.assertions c.toScope d.toScope ∧ FrameKept c.assertions c.top d.top ∧
      ∀ a, o = some a → ∃ u, a = .expr u
  denotes : ∀ c o d callee us, HasFunctions m c.toScope → run (name callee) us c = .ok o d →
    ∀ σ vs r, Holds σ c.assertions → List.Forall₂ (Stands σ) us vs → call callee vs r →
      Option.Rel (Denotes σ) o r
  unreachable : ∀ c d callee us, HasFunctions m c.toScope →
    run (name callee) us c = .error .unreachable d →
    ∀ σ vs r, Holds σ c.assertions → List.Forall₂ (Stands σ) us vs → ¬call callee vs r

/-- The arguments of a call instruction. -/
def runArgs (args : List (Nat × Operand)) : Py (List Value) :=
  args.mapM fun a => do
    let v ← runOperand a.2
    check (hasType v a.1)
    pure v

theorem Inert.runArgs (args : List (Nat × Operand)) : Inert (runArgs args) := by
  unfold Irpy.runArgs
  induction args with
  | nil => exact pure []
  | cons a args ih =>
    rw [List.mapM_cons]
    exact ((runOperand a.2).bind fun v => (check _).bind fun _ => pure v).bind fun _ =>
      ih.bind fun _ => pure _

theorem runArgs_eq_ok {args : List (Nat × Operand)} {us : List Value} (hterms : AllTerms c.top)
    (h : runArgs args c = .ok us d) :
    d = c ∧ ∀ names σ regs vs, RegsMatch names σ regs c.top →
      (args.mapM fun a => do return (⟨a.1, ← a.2.readAs regs a.1⟩ : LlvmInt)) = some vs →
        List.Forall₂ (Stands σ) us vs := by
  induction args generalizing us d with
  | nil =>
    cases h
    refine ⟨rfl, fun _ σ regs vs _ hvs => ?_⟩
    cases hvs
    exact .nil
  | cons a args ih =>
    rw [runArgs, List.mapM_cons] at h
    obtain ⟨u, e, hu, htail⟩ := Py.bind_eq_ok.1 h
    obtain ⟨u', e', hu', hcheck⟩ := Py.bind_eq_ok.1 hu
    obtain ⟨rfl, hstands⟩ := runOperand_eq_ok hterms hu'
    rw [Py.check_bind] at hcheck
    split at hcheck
    · cases hcheck
      obtain ⟨us', e, hus, hcons⟩ := Py.bind_eq_ok.1 htail
      obtain ⟨rfl, hrest⟩ := ih hus
      cases hcons
      refine ⟨rfl, fun names σ regs vs hregs hvs => ?_⟩
      rw [List.mapM_cons] at hvs
      obtain ⟨v, hv, hvs⟩ := Option.bind_eq_some_iff.1 hvs
      obtain ⟨vs', hvs', hcons'⟩ := Option.bind_eq_some_iff.1 hvs
      obtain ⟨x, hx, hpair⟩ := Option.bind_eq_some_iff.1 hv
      cases hpair
      cases hcons'
      exact .cons (hstands hregs (read_of_readAs hx)) (hrest names σ regs vs' hregs hvs')
    · cases hcheck

/-- What becomes of the value of a call. -/
def storeResult (dst : Option String) (o : Option Obj) : Py Unit :=
  match dst, o with
  | none, _ => pure ()
  | some dst, some o => writeStack dst o
  | some _, none => MonadExcept.throw .attribute

theorem runOp_call_eq (run : String → List Value → Py (Option Obj)) (dst : Option String)
    (callee : String) (args : List (Nat × Operand)) :
    runOp P run dst (.call callee args) =
      runArgs args >>= fun us => run (name callee) us >>= storeResult dst := by
  rw [runOp]
  cases dst with
  | none => rfl
  | some dst => rfl

theorem Lands.storeResult (dst : Option String) (o : Option Obj) : Lands (storeResult dst o) := by
  cases dst with
  | none => exact pure ()
  | some dst =>
    cases o with
    | none => exact throw (by decide)
    | some o => exact writeStack dst o

theorem Quiet.storeResult (dst : Option String) (o : Option Obj) : Quiet (storeResult dst o) := by
  cases dst with
  | none => exact pure ()
  | some dst =>
    cases o with
    | none => exact throw _
    | some o => exact writeStack dst o

/-- A call instruction. -/
theorem runOp_call_sound (hinj : NamesDistinct names)
    {run : String → List Value → Py (Option Obj)} {C : String → List LlvmInt → Option LlvmInt → Prop}
    (hrun : CallSound m run C) {call : String → List LlvmInt → Option (Option LlvmInt)}
    (hcall : ∀ callee vs r, call callee vs = some r → C callee vs r) (callee : String)
    (args : List (Nat × Operand)) {dst : Option String} (hdst : ∀ x ∈ dst, x ∈ names) :
    StmtSound m names (runOp P run (dst.map name) (.call callee args)) fun _ regs regs' =>
      execOp call regs ⟨dst, .call callee args⟩ = some regs' := by
  have hok : ∀ {c d}, AllTerms c.top →
      runOp P run (dst.map name) (.call callee args) c = .ok () d →
      ∃ us o e, runArgs args c = .ok us c ∧ run (name callee) us c = .ok o e ∧
        storeResult (dst.map name) o e = .ok () d := by
    intro c d ht h
    rw [runOp_call_eq] at h
    obtain ⟨us, c', hus, h⟩ := Py.bind_eq_ok.1 h
    obtain ⟨o, e, ho, hd⟩ := Py.bind_eq_ok.1 h
    obtain ⟨rfl, -⟩ := runArgs_eq_ok ht hus
    exact ⟨us, o, e, hus, ho, hd⟩
  have hexec : ∀ {regs regs'}, execOp call regs ⟨dst, .call callee args⟩ = some regs' →
      ∃ vs r, (args.mapM fun a => do return (⟨a.1, ← a.2.readAs regs a.1⟩ : LlvmInt)) = some vs ∧
        call callee vs = some r ∧ (dst = none ∧ regs' = regs ∨
          ∃ x v, dst = some x ∧ r = some v ∧ regs' = Function.update regs x (some v)) := by
    intro regs regs' h
    obtain ⟨vs, hvs, h⟩ := Option.bind_eq_some_iff.1 h
    cases hd : dst with
    | none =>
      obtain ⟨r, hr, h⟩ := Option.bind_eq_some_iff.1 h
      rw [hd] at h
      exact ⟨vs, r, hvs, hr, .inl ⟨rfl, (Option.some.inj h).symm⟩⟩
    | some x =>
      obtain ⟨r, hr, h⟩ := Option.bind_eq_some_iff.1 h
      rw [hd] at h
      cases r with
      | none => cases h
      | some v => exact ⟨vs, some v, hvs, hr, .inr ⟨x, v, rfl, rfl, (Option.some.inj h).symm⟩⟩
  constructor
  · rw [runOp_call_eq]
    exact (Quiet.of_inert (.runArgs args)).bind fun us => (hrun.quiet _ us).bind fun o =>
      .storeResult _ o
  · intro c d ht hm h
    obtain ⟨us, o, e, -, ho, hd⟩ := hok ht h
    obtain ⟨hkept, htop, hterms⟩ := hrun.kept c o e callee us hm ho
    cases hdst' : dst with
    | none =>
      rw [hdst'] at hd
      cases hd
      exact ⟨hkept, ht.kept htop⟩
    | some x =>
      rw [hdst'] at hd
      cases o with
      | none => cases hd
      | some o =>
        obtain ⟨u, rfl⟩ := hterms o rfl
        cases writeStack_eq_ok hd
        exact ⟨⟨hkept.globals, hkept.locals⟩, (ht.kept htop).insert _ u⟩
  · intro c d ht hm h σ regs regs' hσ hregs hR
    obtain ⟨us, o, e, hus, ho, hd⟩ := hok ht h
    obtain ⟨vs, r, hvs, hr, hdst'⟩ := hexec hR
    obtain ⟨-, hstands⟩ := runArgs_eq_ok ht hus
    obtain ⟨-, htop, -⟩ := hrun.kept c o e callee us hm ho
    have hregs' := hregs.kept htop hσ
    have hdenotes := hrun.denotes c o e callee us hm ho σ vs r hσ (hstands names σ regs vs hregs hvs)
      (hcall callee vs r hr)
    rcases hdst' with ⟨rfl, rfl⟩ | ⟨x, v, rfl, rfl, rfl⟩
    · cases hd
      exact hregs'
    · obtain ⟨⟨u, rfl, hu⟩⟩ := hdenotes
      cases writeStack_eq_ok hd
      exact hregs'.update hinj (hdst x rfl) hu
  · intro c d ht hm h σ regs regs' hσ hregs hR
    obtain ⟨vs, r, hvs, hr, -⟩ := hexec hR
    rw [runOp_call_eq, Py.bind_apply] at h
    split at h
    · rename_i us c' hus
      obtain ⟨rfl, hstands⟩ := runArgs_eq_ok ht hus
      rw [Py.bind_apply] at h
      split at h
      · exact absurd h (Lands.storeResult _ _ _ d)
      · rename_i e hcallee
        cases h
        exact hrun.unreachable _ d callee us hm hcallee σ vs r hσ (hstands names σ regs vs hregs hvs)
          (hcall callee vs r hr)
    · rename_i e hus
      cases h
      exact absurd hus ((Inert.runArgs args).lands c d)

end

/-! ## Blocks and functions -/

namespace Quiet

theorem runStmt {run : String → List Value → Py (Option Obj)} (hrun : ∀ callee us, Quiet (run callee us))
    (pred : Option String) (stmt : PyStmt LlvmInt IntOp) : Quiet (runStmt P run pred stmt) := by
  cases stmt with
  | phi dst phimap =>
    rw [Irpy.runStmt]
    split
    · exact throw _
    · exact (of_inert (.run _)).bind fun o => writeStack _ o
  | instruction dst op =>
    rw [Irpy.runStmt]
    cases op with
    | instr i =>
      refine (of_inert (.mapM (fun val => .runOperand val) i)).bind fun j =>
        (of_inert (.runInstr j)).bind fun u => ?_
      cases dst with
      | none => exact pure ()
      | some dst => exact writeStack _ _
    | call callee args =>
      rw [runOp_call_eq]
      exact (of_inert (.runArgs args)).bind fun us => (hrun _ us).bind fun o => storeResult _ o

theorem forM {α : Type} {f : α → Py Unit} {as : List α} (h : ∀ a ∈ as, Quiet (f a)) :
    Quiet (as.forM f) := by
  induction as with
  | nil => exact pure ()
  | cons a as ih =>
    exact (h a (List.mem_cons_self ..)).bind fun _ => ih fun b hb => h b (List.mem_cons_of_mem _ hb)

theorem bindStack (args : List (String × Nat)) (us : List Value) : Quiet (bindStack args us) := by
  induction args generalizing us with
  | nil =>
    cases us with
    | nil => exact pure ()
    | cons u us => exact throw _
  | cons a args ih =>
    cases us with
    | nil => exact throw _
    | cons u us => exact (check _).bind fun _ => (writeStack _ _).bind fun _ => ih us

theorem inFrame {α : Type} {x : Py α} (h : Quiet x) : Quiet (inFrame x) := by
  intro c
  have hx := h { c with locals := ∅ :: c.locals }
  unfold Py.after Irpy.inFrame at *
  cases hrun : x { c with locals := ∅ :: c.locals } with
  | ok a d =>
    rw [hrun] at hx
    exact ⟨hx.pathCondition, hx.solver, hx.snapshots, hx.depth⟩
  | error e d =>
    rw [hrun] at hx
    exact ⟨hx.pathCondition, hx.solver, hx.snapshots, hx.depth⟩

theorem callGlobal {run : PyFunction → Py (Option Obj)} (h : ∀ f, Quiet (run f)) (pm : PyModule)
    (callee : String) (us : List Value) : Quiet (callGlobal run pm callee us) := by
  refine get.bind fun c => ?_
  split
  · exact throw _
  · split
    · exact throw _
    · exact inFrame ((bindStack _ _).bind fun _ => h _)
  · exact throw _

/-- No block function assumes anything. -/
theorem runBlock (pm : PyModule) (n : Nat) (f : PyFunction) (bb : String) (pred : Option String) :
    Quiet (runBlock P pm n f bb pred) := by
  induction n generalizing f bb pred with
  | zero => exact throw _
  | succ n ih =>
    rw [Irpy.runBlock]
    split
    · exact throw _
    · rename_i b _
      refine (forM fun stmt _ => runStmt (callGlobal (fun g => ih g g.entry none) pm) _ _).bind
        fun _ => ?_
      cases b.term with
      | ret e =>
        cases e with
        | none => exact pure none
        | some e => exact (of_inert (.run e)).bind fun o => pure _
      | goto bb pred => exact ih _ _ _
      | branch cond iftrue iffalse pred =>
        exact (of_inert (.run cond)).bind fun o => (of_inert (.asValue o)).bind fun u =>
          branch _ _ (ih _ _ _) (ih _ _ _)
      | switch e default cases pred =>
        refine (of_inert (.run e)).bind fun o => (of_inert (.asValue o)).bind fun u =>
          switch _ _ (ih _ _ _) _ fun x hx => ?_
        obtain ⟨y, -, rfl⟩ := List.mem_map.1 hx
        exact ih _ _ _
      | unreachable => exact throw _

end Quiet

/-- The results of a call of the block function under the assignments. -/
def blockResults (m : LlvmModule) (f : LlvmFunction) (bbFn : String) (pred : Option String)
    (sc : Scope) : Results := fun σ r =>
  ∃ bb k regs, blockName bb = bbFn ∧ RegsMatch f.registers σ regs sc.top ∧
    m.exec k f bb pred regs = some r

/-- The block functions of the module, with so many calls below the limit of the recursion. -/
def BlocksSound (P : Lib) (m : LlvmModule) (n : Nat) : Prop :=
  ∀ f ∈ m, ∀ bbFn pred sc, AllTerms sc.top → HasFunctions m sc →
    BodySound sc (runBlock P (emitModule m) n (emitFunction f.2) bbFn (pred.map currBb))
      (blockResults m f.2 bbFn pred sc)

section

variable {m : LlvmModule} {names : List String} {sc : Scope} {n : Nat}

theorem BodySound.throw {R : Results} {e : Exc} (he : e ≠ .unreachable) :
    BodySound sc (MonadExcept.throw e) R where
  returned c o d _ h := by cases h
  unreachable c d _ h := absurd h (Lands.throw he c d)

theorem BodySound.of_operand {val : Operand} {x : Value → Py (Option Obj)} {R : Results}
    (hterms : AllTerms sc.top) (h : ∀ u, (∀ {names σ regs v}, RegsMatch names σ regs sc.top →
      val.read regs = some v → Stands σ u v) → BodySound sc (x u) R) :
    BodySound sc (runOperand val >>= x) R where
  returned c o d hc hrun := by
    subst hc
    obtain ⟨u, e, hu, hx⟩ := Py.bind_eq_ok.1 hrun
    obtain ⟨rfl, hstands⟩ := runOperand_eq_ok hterms hu
    exact (h u hstands).returned _ o d rfl hx
  unreachable c d hc hrun := by
    subst hc
    rw [Py.bind_apply] at hrun
    split at hrun
    · rename_i u e hu
      obtain ⟨rfl, hstands⟩ := runOperand_eq_ok hterms hu
      exact (h u hstands).unreachable _ d rfl hrun
    · rename_i e hu
      cases hrun
      exact absurd hu ((Inert.runOperand val).lands c d)

/-- Statements in front of what returns. -/
theorem BodySound.of_stmt {x : Py Unit} {y : Py (Option Obj)} {R : Effects}
    {T : Registers → Option LlvmInt → Prop} (hx : StmtSound m names x R)
    (hterms : AllTerms sc.top) (hfuns : HasFunctions m sc)
    (hy : ∀ sc', AllTerms sc'.top → HasFunctions m sc' → BodySound sc' y fun σ r =>
      ∃ regs, RegsMatch names σ regs sc'.top ∧ T regs r) :
    BodySound sc (x >>= fun _ => y) fun σ r =>
      ∃ regs regs', RegsMatch names σ regs sc.top ∧ R σ regs regs' ∧ T regs' r where
  returned c o d hc hrun := by
    subst hc
    obtain ⟨_, e, hrunx, hruny⟩ := Py.bind_eq_ok.1 hrun
    obtain ⟨hkept, hterms'⟩ := hx.kept c e hterms hfuns hrunx
    have hret := (hy e.toScope hterms' (hfuns.kept hkept)).returned e o d rfl hruny
    rw [assertions_of_ok hx.quiet hrunx] at hret
    refine ⟨hkept.trans hret.kept, hret.terms, fun σ r hσ => ?_⟩
    rintro ⟨regs, regs', hregs, hR, hT⟩
    exact hret.denotes σ r hσ
      ⟨regs', hx.regs c e hterms hfuns hrunx σ regs regs' hσ hregs hR, hT⟩
  unreachable c d hc hrun σ r hσ := by
    rintro ⟨regs, regs', hregs, hR, hT⟩
    subst hc
    rw [Py.bind_apply] at hrun
    split at hrun
    · rename_i e hrunx
      obtain ⟨hkept, hterms'⟩ := hx.kept c e hterms hfuns hrunx
      rw [← assertions_of_ok hx.quiet hrunx] at hσ
      refine (hy e.toScope hterms' (hfuns.kept hkept)).unreachable e d rfl hrun σ r hσ
        ⟨regs', hx.regs c e hterms hfuns hrunx σ regs regs' ?_ hregs hR, hT⟩
      rwa [← assertions_of_ok hx.quiet hrunx]
    · rename_i hrunx
      cases hrun
      exact hx.unreachable c d hterms hfuns hrunx σ regs regs' hσ hregs hR

/-! ### Calls of functions -/

theorem inFrame_eq_ok {α : Type} {x : Py α} {a : α} (h : inFrame x c = .ok a d) :
    ∃ e, x { c with locals := ∅ :: c.locals } = .ok a e ∧ d = { e with locals := e.locals.tail } := by
  unfold inFrame at h
  split at h
  · rename_i a' e he
    cases h
    exact ⟨e, he, rfl⟩
  · cases h

theorem inFrame_eq_error {α : Type} {x : Py α} {ex : Exc} (h : inFrame x c = .error ex d) :
    ∃ e, x { c with locals := ∅ :: c.locals } = .error ex e := by
  unfold inFrame at h
  split at h
  · cases h
  · rename_i ex' e he
    cases h
    exact ⟨e, he⟩

/-- A call fails, or is the call of a function of the module. -/
theorem callGlobal_cases (hm : m.Emittable) (hfuns : HasFunctions m c.toScope)
    (run : PyFunction → Py (Option Obj)) (callee : String) (us : List Value) :
    (∃ f ∈ m, (∀ g, m.lookup callee = some g → g = f.2) ∧
      callGlobal run (emitModule m) (name callee) us c = inFrame (do
        bindStack (emitFunction f.2).args us
        run (emitFunction f.2)) c) ∨
    ∃ e, e ≠ .unreachable ∧ callGlobal run (emitModule m) (name callee) us c = .error e c := by
  rw [callGlobal, Py.get_bind]
  cases hglobal : c.globals.lookup (name callee) with
  | none => exact .inr ⟨.key, by decide, rfl⟩
  | some o =>
    cases o with
    | func g =>
      dsimp only
      cases hf : dictLookup (emitModule m) g with
      | none => exact .inr ⟨.assertion, by decide, rfl⟩
      | some f' =>
        obtain ⟨f, hmem, heq⟩ := List.mem_map.1 (mem_of_dictLookup hf)
        obtain ⟨rfl, rfl⟩ := Prod.mk.inj heq
        refine .inl ⟨f, hmem, fun g hg => ?_, rfl⟩
        have hg' := mem_of_lookup hg
        have hname : name callee = name f.1 :=
          Obj.func.inj (Option.some.inj ((hfuns _ hg').symm.trans hglobal))
        exact congrArg Prod.snd (List.inj_on_of_nodup_map hm.names hg' hmem hname)
    | _ => exact .inr ⟨.typeError, by decide, rfl⟩

theorem mem_registers_of_args {f : LlvmFunction} {a : String × Nat} (h : a ∈ f.args) :
    a.1 ∈ f.registers := List.mem_append_left _ (List.mem_map_of_mem h)

/-- A function is sound if its block functions are. -/
theorem call_sound (hm : m.Emittable) (h : BlocksSound P m n) {f : String × LlvmFunction}
    (hf : f ∈ m) (us : List Value) (htop : sc.top = ∅) (hfuns : HasFunctions m sc) :
    BodySound sc (do
      bindStack (emitFunction f.2).args us
      runBlock P (emitModule m) n (emitFunction f.2) (emitFunction f.2).entry none)
    fun σ r => ∃ k vs regs, List.Forall₂ (Stands σ) us vs ∧
      bindArgs (fun _ => none) f.2.args vs = some regs ∧
        m.exec k f.2 f.2.entry none regs = some r := by
  have hterms : AllTerms sc.top := by
    intro key o ho
    rw [htop] at ho
    cases ho
  have hstmt := bindStack_sound (m := m) (hm.functions f hf).registers
    (fun a => mem_registers_of_args) us
  refine (BodySound.of_stmt (T := fun regs r => ∃ k, m.exec k f.2 f.2.entry none regs = some r)
    hstmt hterms hfuns fun sc' hterms' hfuns' => ?_).mono fun σ r => ?_
  · refine (h f hf _ none sc' hterms' hfuns').mono fun σ r => ?_
    rintro ⟨regs, hregs, k, hk⟩
    exact ⟨_, k, regs, rfl, hregs, hk⟩
  · rintro ⟨k, vs, regs, hvs, hbind, hk⟩
    have hnone : RegsMatch f.2.registers σ (fun _ => none) sc.top := by
      intro x v hx
      cases hx
    exact ⟨fun _ => none, regs, hnone, ⟨vs, hvs, hbind⟩, k, hk⟩

theorem frameKept_top {Γ : List (Term .bool)} {fs es : List (Dict String Obj)}
    (h : List.Forall₂ (FrameKept Γ) fs es) :
    FrameKept Γ (fs.headD ∅) (es.headD ∅) ∧ List.Forall₂ (FrameKept Γ) fs.tail es.tail := by
  cases h with
  | nil => exact ⟨.refl _, .nil⟩
  | cons h h' => exact ⟨h, h'⟩

/-- The call of a name of the module. -/
theorem callGlobal_sound (hm : m.Emittable) (h : BlocksSound P m n) :
    CallSound m (callGlobal (fun g => runBlock P (emitModule m) n g g.entry none) (emitModule m))
      fun callee vs r => ∃ k, m.call k callee vs = some r := by
  -- what is called is sound on a dictionary of its own
  have hreturned : ∀ {c o d callee us}, HasFunctions m c.toScope →
      callGlobal (fun g => runBlock P (emitModule m) n g g.entry none) (emitModule m) (name callee)
        us c = .ok o d →
      Kept c.assertions c.toScope d.toScope ∧ FrameKept c.assertions c.top d.top ∧
        (∀ a, o = some a → ∃ u, a = .expr u) ∧ ∀ σ vs r, Holds σ c.assertions →
          List.Forall₂ (Stands σ) us vs → (∃ k, m.call k callee vs = some r) →
            Option.Rel (Denotes σ) o r := by
    intro c o d callee us hfuns hrun
    rcases callGlobal_cases hm hfuns _ callee us with ⟨f, hf, huniq, heq⟩ | ⟨e, -, heq⟩
    · rw [heq] at hrun
      obtain ⟨e, he, rfl⟩ := inFrame_eq_ok hrun
      have hsound := call_sound hm h hf us (rfl : ({ c.toScope with locals := ∅ :: c.locals } :
        Scope).top = ∅) hfuns
      have hret := hsound.returned _ o e rfl he
      obtain ⟨htop, htail⟩ := frameKept_top hret.kept.locals
      refine ⟨⟨hret.kept.globals, htail⟩, htop, hret.terms, fun σ vs r hσ hvs => ?_⟩
      rintro ⟨k, hk⟩
      obtain ⟨g, hg, hk⟩ := Option.bind_eq_some_iff.1 hk
      obtain ⟨regs, hbind, hk⟩ := Option.bind_eq_some_iff.1 hk
      cases huniq g hg
      exact hret.denotes σ r hσ ⟨k, vs, regs, hvs, hbind, hk⟩
    · cases heq.symm.trans hrun
  constructor
  · exact Quiet.callGlobal (fun g => Quiet.runBlock _ _ _ _ _) _
  · intro c o d callee us hfuns hrun
    obtain ⟨hkept, htop, hterms, -⟩ := hreturned hfuns hrun
    exact ⟨hkept, htop, hterms⟩
  · intro c o d callee us hfuns hrun
    exact (hreturned hfuns hrun).2.2.2
  · intro c d callee us hfuns hrun σ vs r hσ hvs
    rintro ⟨k, hk⟩
    rcases callGlobal_cases hm hfuns _ callee us with ⟨f, hf, huniq, heq⟩ | ⟨e, hne, heq⟩
    · rw [heq] at hrun
      obtain ⟨e, he⟩ := inFrame_eq_error hrun
      obtain ⟨g, hg, hk⟩ := Option.bind_eq_some_iff.1 hk
      obtain ⟨regs, hbind, hk⟩ := Option.bind_eq_some_iff.1 hk
      cases huniq g hg
      have hsound := call_sound hm h hf us (rfl : ({ c.toScope with locals := ∅ :: c.locals } :
        Scope).top = ∅) hfuns
      exact hsound.unreachable _ e rfl he σ r hσ ⟨k, vs, regs, hvs, hbind, hk⟩
    · cases heq.symm.trans hrun
      exact hne rfl

/-! ### Terminators -/

/-- What a terminator returns. -/
def LlvmModule.execTerm (m : LlvmModule) (n : Nat) (f : LlvmFunction) (bb : String)
    (regs : Registers) : Terminator → Option (Option LlvmInt)
  | .ret none => some none
  | .ret (some val) => do return some (← val.read regs)
  | .br dest => m.exec n f dest (some bb) regs
  | .condBr cond iftrue iffalse => do
    let c ← cond.readAs regs 1
    m.exec n f (if c = 1 then iftrue else iffalse) (some bb) regs
  | .switch (w := w) val default cases => do
    let v ← val.readAs regs w
    m.exec n f ((cases.lookup v).getD default) (some bb) regs
  | .unreachable => none

theorem LlvmModule.exec_succ (m : LlvmModule) (k : Nat) (f : LlvmFunction) (bb : String)
    (pred : Option String) (regs : Registers) :
    m.exec (k + 1) f bb pred regs = (do
      let b ← f.blocks.lookup bb
      let regs ← execPhis pred regs b.block.phis
      let regs ← b.block.instructions.foldlM (execOp fun callee vs => m.call k callee vs) regs
      m.execTerm k f bb regs b.term) := by
  rw [exec]
  rfl

/-- The last statement of a block function. -/
def runTerm (P : Lib) (pm : PyModule) (n : Nat) (f : PyFunction) : PyTerm → Py (Option Obj)
  | .ret none => pure none
  | .ret (some e) => do return some (← e.run)
  | .goto bb pred => runBlock P pm n f bb (some pred)
  | .branch cond iftrue iffalse pred => do
    branch P (← asValue (← cond.run)) (.int 1) (runBlock P pm n f iftrue (some pred))
      (runBlock P pm n f iffalse (some pred))
  | .switch (w := w) e default cases pred => do
    switch P (← asValue (← e.run)) (.int w) (runBlock P pm n f default (some pred))
      (cases.map fun x =>
        (constantInt x.1.toNat w, .int w, runBlock P pm n f x.2 (some pred)))
  | .unreachable => throw .unreachable

theorem runBlock_succ (pm : PyModule) (n : Nat) (f : PyFunction) (bb : String)
    (pred : Option String) {b : PyBlock} (hb : dictLookup f.blocks bb = some b) :
    runBlock P pm (n + 1) f bb pred = (do
      b.body.forM (runStmt P (callGlobal (fun g => runBlock P pm n g g.entry none) pm) pred)
      runTerm P pm n f b.term) := by
  rw [runBlock, hb]
  rfl

theorem stands_bit {u : Value} {x : BitVec 1} (h : Stands σ u ⟨1, x⟩) :
    u.truth.eval σ = decide (x = 1) := by
  obtain ⟨t, rfl, ht⟩ := h
  change BitVec.ofBool (t.eval σ) = x at ht
  rw [← ht]
  show t.eval σ = decide (BitVec.ofBool (t.eval σ) = 1)
  cases t.eval σ with
  | true => rfl
  | false => rfl

/-- A block function returns what its terminator does. -/
theorem runTerm_sound (his : ∀ g, P.is (.func g) (.func g) = true) (h : BlocksSound P m n)
    {f : String × LlvmFunction} (hf : f ∈ m) (hterms : AllTerms sc.top)
    (hfuns : HasFunctions m sc) (bb : String) (term : Terminator) :
    BodySound sc (runTerm P (emitModule m) n (emitFunction f.2) (visitTerminator bb term)) fun σ r =>
      ∃ regs, RegsMatch f.2.registers σ regs sc.top ∧
        ∃ k, m.execTerm k f.2 bb regs term = some r := by
  -- the block functions that the terminator calls
  have hblock : ∀ dest, BodySound sc (runBlock P (emitModule m) n (emitFunction f.2) (blockName dest)
      (some (currBb bb))) fun σ r => ∃ regs, RegsMatch f.2.registers σ regs sc.top ∧
        ∃ k, m.exec k f.2 dest (some bb) regs = some r := by
    intro dest
    refine (h f hf (blockName dest) (some bb) sc hterms hfuns).mono fun σ r => ?_
    rintro ⟨regs, hregs, k, hk⟩
    exact ⟨dest, k, regs, rfl, hregs, hk⟩
  have hquiet : ∀ dest, Quiet (runBlock P (emitModule m) n (emitFunction f.2) (blockName dest)
    (some (currBb bb))) := fun dest => .runBlock _ _ _ _ _
  cases term with
  | ret val =>
    cases val with
    | none =>
      constructor
      · intro c o d hc hrun
        cases hrun
        subst hc
        refine ⟨.refl _, nofun, fun σ r _ => ?_⟩
        rintro ⟨regs, -, k, hk⟩
        cases hk
        exact .none
      · intro c d _ hrun
        cases hrun
    | some val =>
      constructor
      · intro c o d hc hrun
        subst hc
        obtain ⟨o, e, hval, ho⟩ := Py.bind_eq_ok.1 hrun
        obtain ⟨rfl, u, rfl, hstands⟩ := run_get hterms hval
        cases ho
        refine ⟨.refl _, fun a ha => ⟨u, (Option.some.inj ha).symm⟩, fun σ r _ => ?_⟩
        rintro ⟨regs, hregs, k, hk⟩
        obtain ⟨v, hv, hr⟩ := Option.bind_eq_some_iff.1 hk
        cases hr
        exact .some ⟨u, rfl, hstands hregs hv⟩
      · intro c d _ hrun
        exact absurd hrun (((Inert.run (get val)).lands.bind fun o => .pure (some o)) c d)
  | br dest => exact hblock dest
  | condBr cond iftrue iffalse =>
    have heq : runTerm P (emitModule m) n (emitFunction f.2)
        (visitTerminator bb (.condBr cond iftrue iffalse)) = runOperand cond >>= fun u =>
          branch P u (.int 1)
            (runBlock P (emitModule m) n (emitFunction f.2) (blockName iftrue) (some (currBb bb)))
            (runBlock P (emitModule m) n (emitFunction f.2) (blockName iffalse)
              (some (currBb bb))) :=
      (bind_assoc ..).symm
    rw [heq]
    refine BodySound.of_operand hterms fun u hu => ?_
    refine (BodySound.branch his (hblock iftrue) (hblock iffalse) (hquiet _) (hquiet _) u).mono
      fun σ r => ?_
    rintro ⟨regs, hregs, k, hk⟩
    obtain ⟨x, hx, hk⟩ := Option.bind_eq_some_iff.1 hk
    rw [selected, stands_bit (hu hregs (read_of_readAs hx))]
    by_cases hx1 : x = 1
    · rw [if_pos (decide_eq_true hx1)]
      rw [if_pos hx1] at hk
      exact ⟨regs, hregs, k, hk⟩
    · rw [if_neg (by simpa using hx1)]
      rw [if_neg hx1] at hk
      exact ⟨regs, hregs, k, hk⟩
  | @switch w val default cases =>
    have heq : runTerm P (emitModule m) n (emitFunction f.2)
        (visitTerminator bb (.switch val default cases)) = runOperand val >>= fun u =>
          switch P u (.int w)
            (runBlock P (emitModule m) n (emitFunction f.2) (blockName default) (some (currBb bb)))
            (cases.map fun x => (constantInt x.1.toNat w, .int w, runBlock P (emitModule m) n
              (emitFunction f.2) (blockName x.2) (some (currBb bb)))) := by
      rw [runOperand, bind_assoc, visitTerminator, runTerm, List.map_map]
      rfl
    rw [heq]
    refine BodySound.of_operand hterms fun u hu => ?_
    refine (BodySound.switch his hblock hquiet u default cases).mono fun σ r => ?_
    rintro ⟨regs, hregs, k, hk⟩
    obtain ⟨x, hx, hk⟩ := Option.bind_eq_some_iff.1 hk
    exact ⟨x, hu hregs (read_of_readAs hx), regs, hregs, k, hk⟩
  | unreachable =>
    constructor
    · intro c o d _ hrun
      cases hrun
    · intro c d _ _ σ r _
      rintro ⟨regs, -, k, hk⟩
      cases hk

/-! ### Block functions -/

theorem mem_registers_of_phi {f : LlvmFunction} {b : String × LlvmBlock} (hb : b ∈ f.blocks)
    {phi : PhiNode LlvmInt} (h : phi ∈ b.2.block.phis) : phi.name ∈ f.registers :=
  List.mem_append_right _ (List.mem_flatMap.2
    ⟨b, hb, List.mem_append_left _ (List.mem_map_of_mem h)⟩)

theorem mem_registers_of_result {f : LlvmFunction} {b : String × LlvmBlock} (hb : b ∈ f.blocks)
    {i : Instruction IntOp} (h : i ∈ b.2.block.instructions) {x : String} (hx : i.result = some x) :
    x ∈ f.registers :=
  List.mem_append_right _ (List.mem_flatMap.2
    ⟨b, hb, List.mem_append_right _ (List.mem_filterMap.2 ⟨i, h, hx⟩)⟩)

theorem StmtSound.exists {ι : Type} [Inhabited ι] {x : Py Unit} {R : ι → Effects}
    (h : ∀ k, StmtSound m names x (R k)) :
    StmtSound m names x fun σ regs regs' => ∃ k, R k σ regs regs' where
  quiet := (h default).quiet
  kept := (h default).kept
  regs c d ht hm hrun σ regs regs' hσ hregs hR :=
    hR.elim fun k => (h k).regs c d ht hm hrun σ regs regs' hσ hregs
  unreachable c d ht hm hrun σ regs regs' hσ hregs hR :=
    hR.elim fun k => (h k).unreachable c d ht hm hrun σ regs regs' hσ hregs

/-- The statements of a block. -/
theorem emitBasicBlock_sound {f : LlvmFunction} (hf : f.Emittable)
    {run : String → List Value → Py (Option Obj)} {C : String → List LlvmInt → Option LlvmInt → Prop}
    (hrun : CallSound m run C) {call : String → List LlvmInt → Option (Option LlvmInt)}
    (hcall : ∀ callee vs r, call callee vs = some r → C callee vs r) {b : String × LlvmBlock}
    (hb : b ∈ f.blocks) (pred : Option String) :
    StmtSound m f.registers
      ((emitBasicBlock b.2.block).forM (runStmt P run (pred.map currBb))) fun _ regs regs' =>
        ∃ mid, execPhis pred regs b.2.block.phis = some mid ∧
          b.2.block.instructions.foldlM (execOp call) mid = some regs' := by
  have hphis : StmtSound m f.registers
      ((b.2.block.phis.map visitPHINode).forM (runStmt P run (pred.map currBb)))
      fun _ regs regs' => b.2.block.phis.foldlM (stepPhi pred) regs = some regs' := by
    refine StmtSound.forM (List.forall₂_map_left_iff.2 (List.forall₂_same.2 fun phi hphi => ?_))
    exact runStmt_phi_sound hf.registers (mem_registers_of_phi hb hphi) (hf.edges b hb phi hphi)
      run pred
  have hinstrs : StmtSound m f.registers
      ((b.2.block.instructions.map visitInstruction).forM (runStmt P run (pred.map currBb)))
      fun _ regs regs' => b.2.block.instructions.foldlM (execOp call) regs = some regs' := by
    refine StmtSound.forM (List.forall₂_map_left_iff.2 (List.forall₂_same.2 fun i hi => ?_))
    have hdst : ∀ x ∈ i.result, x ∈ f.registers := fun x hx => mem_registers_of_result hb hi hx
    have hfaithful := hf.instructions b hb i hi
    obtain ⟨dst, op⟩ := i
    cases op with
    | instr j => exact runOp_instr_sound hf.registers hfaithful hdst run call
    | call callee args =>
      exact runOp_call_sound (P := P) hf.registers hrun hcall callee args hdst
  have happend : (emitBasicBlock b.2.block).forM (runStmt P run (pred.map currBb)) =
      (b.2.block.phis.map visitPHINode).forM (runStmt P run (pred.map currBb)) >>= fun _ =>
        (b.2.block.instructions.map visitInstruction).forM (runStmt P run (pred.map currBb)) :=
    List.forM_append
  rw [happend]
  refine (hphis.seq hinstrs).mono fun σ regs regs' => ?_
  rintro ⟨mid, hmid, hregs'⟩
  exact ⟨mid, (execPhis_eq (hf.phis b hb)).symm.trans hmid, hregs'⟩

/-- By induction on the depth of the calls. -/
theorem runBlock_sound (his : ∀ g, P.is (.func g) (.func g) = true) (hm : m.Emittable) (n : Nat) :
    BlocksSound P m n := by
  induction n with
  | zero => exact fun f _ bbFn pred sc _ _ => BodySound.throw (by decide)
  | succ n ih =>
    intro f hf bbFn pred sc hterms hfuns
    have hblocks := (hm.functions f hf).blocks
    cases hb : dictLookup (emitFunction f.2).blocks bbFn with
    | none =>
      rw [runBlock, hb]
      exact BodySound.throw (by decide)
    | some b' =>
      obtain ⟨b, hmem, heq⟩ := List.mem_map.1 (mem_of_dictLookup hb)
      obtain ⟨rfl, rfl⟩ := Prod.mk.inj heq
      rw [runBlock_succ _ _ _ _ _ hb]
      have hbody := StmtSound.exists fun k => emitBasicBlock_sound (P := P) (hm.functions f hf)
        (callGlobal_sound hm ih) (fun callee vs r (hr : m.call k callee vs = some r) => ⟨k, hr⟩)
        hmem pred
      refine (BodySound.of_stmt (T := fun regs r => ∃ k, m.execTerm k f.2 b.1 regs b.2.term = some r)
        hbody hterms hfuns fun sc' hterms' hfuns' => ?_).mono fun σ r => ?_
      · exact runTerm_sound his ih hf hterms' hfuns' b.1 b.2.term
      · rintro ⟨bb, k, regs, hbb, hregs, hk⟩
        cases k with
        | zero => cases hk
        | succ k =>
          rw [LlvmModule.exec_succ] at hk
          obtain ⟨b₁, hb₁, hk⟩ := Option.bind_eq_some_iff.1 hk
          obtain ⟨mid, hmid, hk⟩ := Option.bind_eq_some_iff.1 hk
          obtain ⟨regs', hregs', hk⟩ := Option.bind_eq_some_iff.1 hk
          -- the block of the name is the one that was emitted
          cases List.inj_on_of_nodup_map hblocks (mem_of_lookup hb₁) hmem hbb
          exact ⟨regs, regs', hregs, ⟨k, mid, hmid, hregs'⟩, k, hk⟩

end

/-! ## Calls of emitted functions -/

variable {m : LlvmModule} {callee : String} {us : List Value} {vs : List LlvmInt}

/-- The condition of the example. -/
def pickBit : Term .bool := .var "b" .bool

def pickWord : Term (.bv 8) := .var "x" (.bv 8)

/-- The second argument, and one more if the first one is set. -/
def pickFunction : LlvmFunction where
  args := [("%c", 1), ("%x", 8)]
  blocks := [
    ("%entry", ⟨⟨[], [], [], by simp⟩, .condBr (.argument "%c") "%one" "%two"⟩),
    ("%one", ⟨⟨["%entry"], [], [⟨some "%y", .instr (w := 8) (.bin (.add false false)
      (.argument "%x") (.constant ⟨8, 1⟩))⟩], by simp⟩, .br "%end"⟩),
    ("%two", ⟨⟨["%entry"], [], [], by simp⟩, .br "%end"⟩),
    ("%end", ⟨⟨["%one", "%two"], [⟨"%r", [("%one", .instruction "%y"), ("%two", .argument "%x")]⟩],
      [], by simp [exists_or]⟩, .ret (some (.instruction "%r"))⟩)]
  entry := "%entry"

/-- A function that ends in an unreachable block. -/
def stopFunction : LlvmFunction where
  args := []
  blocks := [("%entry", ⟨⟨[], [], [], by simp⟩, .br "%dead"⟩),
    ("%dead", ⟨⟨["%entry"], [], [], by simp⟩, .unreachable⟩)]
  entry := "%entry"

def exampleModule : LlvmModule := [("@pick", pickFunction), ("@stop", stopFunction)]

theorem pickFunction_emittable : pickFunction.Emittable := by
  have hedges : name "%one" ≠ name "%two" := by decide +kernel
  constructor
  · unfold NamesDistinct
    decide +kernel
  · decide +kernel
  · simp [pickFunction, hedges, hedges.symm, -Prod.forall]
  · simp [pickFunction]
  · simp [pickFunction, IntOp.Faithful, Faithful]

theorem stopFunction_emittable : stopFunction.Emittable := by
  constructor
  · unfold NamesDistinct
    decide +kernel
  · decide +kernel
  · simp [stopFunction]
  · simp [stopFunction]
  · simp [stopFunction]

theorem exampleModule_emittable : exampleModule.Emittable := by
  constructor
  · intro f hf
    rcases List.mem_cons.1 hf with rfl | hf
    · exact pickFunction_emittable
    · cases List.mem_singleton.1 hf
      exact stopFunction_emittable
  · decide +kernel

def exampleCtx : Ctx :=
  { Ctx.new with
    globals := ((∅ : Dict String Obj).insert (name "@pick") (.func (name "@pick"))).insert
      (name "@stop") (.func (name "@stop")) }

theorem exampleCtx_hasFunctions : HasFunctions exampleModule exampleCtx.toScope := by
  have hne : name "@pick" ≠ name "@stop" := by decide +kernel
  intro f hf
  rcases List.mem_cons.1 hf with rfl | hf
  · exact (AList.lookup_insert_ne hne).trans (AList.lookup_insert _)
  · cases List.mem_singleton.1 hf
    exact AList.lookup_insert _

/-- The solver that knows what it is asked about the condition of the example. -/
noncomputable def exampleSolver : Solver where
  simplify := Solver.ideal.simplify
  eval_simplify := Solver.ideal.eval_simplify
  unsat Γ := if Γ = [.not pickBit] ∨ Γ = [.not (.not pickBit)] then false else Solver.ideal.unsat Γ
  unsat_iff Γ := by
    have hbit : ∀ v, pickBit.eval (boolEnv v) = v := by
      intro v
      rw [pickBit, Term.eval]
      rfl
    split
    · rename_i h
      refine iff_of_false Bool.false_ne_true fun hnot => ?_
      rcases h with rfl | rfl
      · refine hnot (boolEnv false) (List.forall_mem_singleton.2 ?_)
        rw [Term.eval_not, hbit]
        rfl
      · refine hnot (boolEnv true) (List.forall_mem_singleton.2 ?_)
        rw [Term.eval_not, Term.eval_not, hbit]
        rfl
    · exact Solver.ideal.unsat_iff Γ

noncomputable def exampleLib : Lib := { Lib.ideal with toSolver := exampleSolver }

/-- A call returns this term. -/
def returnsTerm (u : Value) : EStateM.Result Exc Ctx (Option Obj) → Bool
  | .ok (some (.expr v)) _ => v == u
  | _ => false

theorem of_returnsTerm (u : Value) (r : EStateM.Result Exc Ctx (Option Obj))
    (h : returnsTerm u r = true) : ∃ d, r = .ok (some (.expr u)) d := by
  unfold returnsTerm at h
  split at h
  · rename_i v d
    exact ⟨d, by rw [eq_of_beq h]⟩
  · cases h

/-- Every Boolean is true, and every word is four. -/
def exampleEnv : Env where
  var _ s := match s with
    | .bool => true
    | .bv w => BitVec.ofNat w 4
    | .args => default
  fn _ _ _ := default

theorem exists_pick : ∃ d, callFunction exampleLib (emitModule exampleModule) 3 (name "@pick")
    [⟨.bool, pickBit⟩, ⟨.bv 8, pickWord⟩] exampleCtx =
      .ok (some (.expr ⟨.bv 8, .ite pickBit (.bin .add pickWord (.lit 1)) pickWord⟩)) d :=
  of_returnsTerm _ _ (by decide +kernel)

/-- A call ends in an unreachable block. -/
def endsUnreachable : EStateM.Result Exc Ctx (Option Obj) → Bool
  | .error e _ => e == .unreachable
  | _ => false

theorem of_endsUnreachable (r : EStateM.Result Exc Ctx (Option Obj))
    (h : endsUnreachable r = true) : ∃ d, r = .error .unreachable d := by
  unfold endsUnreachable at h
  split at h
  · rename_i e d
    exact ⟨d, by rw [eq_of_beq h]⟩
  · cases h

end L4Thread.Irpy
