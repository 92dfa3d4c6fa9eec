import L4Thread.Irpy.Emitter
import L4Thread.Lib.Moves

/-!
# The phis of a block

The phis of a block take their values at once. The emitted statements are moves that run one by one,
and the moves of an edge agree only if no phi takes, along the edge, the value of an earlier phi of
the block. Names that the emitter makes equal add to the ways in which a phi gets another value.
-/

namespace L4Thread.Irpy

open PyInstVisitor Moves

variable {κ ι ν : Type} {constant : κ → ν} {op : ι → PyStack ν → Option ν} {pred : String}
  {stack stack' : PyStack ν} {b : BasicBlock κ ι} {phi : PhiNode κ} {val : LlvmValue κ}

/-- Behind the block's statements every phi has the value its operand had before them. -/
def Simultaneous (constant : κ → ν) (b : BasicBlock κ ι) : Prop :=
  ∀ (op : ι → PyStack ν → Option ν) (pred : String), pred ∈ b.preds → ∀ stack stack',
    execBlock constant op (currBb pred) stack (emitBasicBlock b) = some stack' →
    ∀ phi ∈ b.phis, ∀ val, (pred, val) ∈ phi.incoming →
      stack' (name phi.name) = (get val).eval constant stack

/-- Where the value of an operand comes from. -/
def source (constant : κ → ν) (val : LlvmValue κ) : Source String ν :=
  match get val with
  | .stack key => .slot key
  | .call c => .value (constant c)

theorem eval_get : (get val).eval constant stack = (source constant val).read stack := by
  rw [source]
  cases get val with
  | stack key => rfl
  | call c => rfl

/-- Along no edge does a phi read what an earlier phi has changed, and no name is given twice. -/
structure Sequential (constant : κ → ν) (b : BasicBlock κ ι) : Prop where
  /-- Edges from blocks with one name bring one value. -/
  edges : ∀ phi ∈ b.phis, ∀ e ∈ phi.incoming, ∀ e' ∈ phi.incoming, name e.1 = name e'.1 →
    source constant e.2 = source constant e'.2
  /-- A later phi does not take the value of an earlier one, unless that one keeps its own. -/
  phis : b.phis.Pairwise fun phi phi' => ∀ e ∈ phi.incoming, ∀ e' ∈ phi'.incoming,
    name e.1 = name e'.1 →
    Agree (name phi.name, source constant e.2) (name phi'.name, source constant e'.2)
  /-- No later result of the block has the name of a phi. -/
  results : b.preds ≠ [] → ∀ phi ∈ b.phis, ∀ i ∈ b.instructions,
    i.result.map name ≠ some (name phi.name)

/-! ## Dictionary literals -/

theorem mem_of_dictLookup {β : Type} {entries : List (String × β)} {key : String} {v : β}
    (h : dictLookup entries key = some v) : (key, v) ∈ entries := by
  rw [dictLookup, Option.map_eq_some_iff] at h
  obtain ⟨⟨k, w⟩, hfind, rfl⟩ := h
  have hkey : k = key := by simpa using List.find?_some hfind
  rw [← hkey]
  exact List.mem_reverse.mp (List.mem_of_find?_eq_some hfind)

theorem exists_dictLookup {β : Type} {entries : List (String × β)} {key : String} {v : β}
    (h : (key, v) ∈ entries) : ∃ w, dictLookup entries key = some w := by
  have hfind : (entries.reverse.find? fun e => e.1 == key).isSome := by
    rw [List.find?_isSome]
    exact ⟨(key, v), List.mem_reverse.mpr h, beq_self_eq_true key⟩
  obtain ⟨e, he⟩ := Option.isSome_iff_exists.mp hfind
  exact ⟨e.2, by rw [dictLookup, he, Option.map_some]⟩

/-! ## The phis as moves -/

/-- The move of a phi for the argument `pred`, with the entry the dictionary has for it. -/
def move (constant : κ → ν) (pred : String) (phi : PhiNode κ) :
    Option (String × Source String ν) :=
  (dictLookup (phi.incoming.map fun e => (name e.1, e.2)) pred).map fun val =>
    (name phi.name, source constant val)

theorem dictLookup_map {β γ : Type} {f : β → γ} {entries : List (String × β)} {key : String} :
    dictLookup (entries.map fun e => (e.1, f e.2)) key = (dictLookup entries key).map f := by
  rw [dictLookup, dictLookup, ← List.map_reverse, List.find?_map, Option.map_map, Option.map_map]
  rfl

/-- The move comes from an entry of a block with the name. -/
theorem of_move {m : String × Source String ν} (h : move constant pred phi = some m) :
    ∃ e ∈ phi.incoming, name e.1 = pred ∧ m = (name phi.name, source constant e.2) := by
  rw [move, Option.map_eq_some_iff] at h
  obtain ⟨val, hval, rfl⟩ := h
  obtain ⟨e, he, heq⟩ := List.mem_map.mp (mem_of_dictLookup hval)
  obtain ⟨hname, rfl⟩ := Prod.mk.inj heq
  exact ⟨e, he, hname, rfl⟩

/-- A phi has a move along every edge. -/
theorem exists_move (constant : κ → ν) (hphi : phi ∈ b.phis) (hpred : pred ∈ b.preds) :
    ∃ m, move constant (currBb pred) phi = some m := by
  obtain ⟨val, hval⟩ := (b.incoming_iff phi hphi pred).mpr hpred
  have hentry : (name pred, val) ∈ phi.incoming.map fun e => (name e.1, e.2) :=
    List.mem_map.mpr ⟨(pred, val), hval, rfl⟩
  obtain ⟨w, hw⟩ := exists_dictLookup hentry
  exact ⟨_, by rw [move, currBb, hw, Option.map_some]⟩

/-- The statement of a phi is its move. -/
theorem exec_visitPHINode {m : String × Source String ν} (hm : move constant pred phi = some m) :
    (visitPHINode phi : PyStmt κ ι).exec constant op pred stack =
      (m.2.read stack).map fun v => Function.update stack m.1 (some v) := by
  rw [move, Option.map_eq_some_iff] at hm
  obtain ⟨val, hval, rfl⟩ := hm
  have hmap : (phi.incoming.map fun e => (name e.1, get e.2)) =
      (phi.incoming.map fun e => (name e.1, e.2)).map fun e => (e.1, get e.2) := by
    rw [List.map_map]
    rfl
  have hentry : dictLookup (phi.incoming.map fun e => (name e.1, get e.2)) pred =
      some (get val) := by
    rw [hmap, dictLookup_map, hval, Option.map_some]
  simp only [visitPHINode, PyStmt.exec, hentry, Option.bind_eq_bind, Option.bind_some, eval_get,
    Option.pure_def]
  cases (source constant val).read stack <;> rfl

/-- The statements of the phis are the moves. -/
theorem exec_phis {phis : List (PhiNode κ)}
    (h : ∀ phi ∈ phis, (move constant pred phi).isSome) :
    execBlock constant op pred stack (phis.map visitPHINode) =
      run (phis.filterMap (move constant pred)) stack := by
  induction phis generalizing stack with
  | nil => rfl
  | cons phi phis ih =>
    obtain ⟨m, hm⟩ := Option.isSome_iff_exists.mp (h phi List.mem_cons_self)
    rw [List.filterMap_cons_some hm, run, List.map_cons, execBlock, List.foldlM_cons,
      exec_visitPHINode hm]
    cases m.2.read stack with
    | none => rfl
    | some v => exact ih fun phi hphi => h phi (List.mem_cons_of_mem _ hphi)

/-- The block runs its phis and then its instructions. -/
theorem execBlock_emitBasicBlock :
    execBlock constant op pred stack (emitBasicBlock b) =
      (execBlock constant op pred stack (b.phis.map visitPHINode)).bind fun stack =>
        execBlock constant op pred stack (b.instructions.map visitInstruction) := by
  rw [execBlock, emitBasicBlock, List.foldlM_append]
  rfl

/-! ## The instructions behind the phis -/

/-- The instructions leave the names alone that are not their results. -/
theorem exec_instructions_of_ne {is : List (Instruction ι)} {key : String}
    (h : ∀ i ∈ is, i.result.map name ≠ some key)
    (hexec : execBlock constant op pred stack (is.map visitInstruction) = some stack') :
    stack' key = stack key := by
  induction is generalizing stack with
  | nil =>
    cases hexec
    rfl
  | cons i is ih =>
    rw [List.map_cons, execBlock, List.foldlM_cons] at hexec
    obtain ⟨stack₁, hfirst, hrest⟩ := Option.bind_eq_some_iff.mp hexec
    rw [ih (fun i hi => h i (List.mem_cons_of_mem _ hi)) hrest]
    have hi := h i List.mem_cons_self
    rw [visitInstruction, PyStmt.exec] at hfirst
    obtain ⟨v, -, hfirst⟩ := Option.bind_eq_some_iff.mp hfirst
    cases hdst : i.result.map name with
    | none =>
      rw [hdst] at hfirst
      cases hfirst
      rfl
    | some dst =>
      rw [hdst] at hfirst hi
      cases hfirst
      exact Function.update_of_ne (fun heq => hi (congrArg some heq.symm)) _ _

/-- With calls that all return `w`, every result of the instructions is `w`. -/
theorem exec_instructions_const (constant : κ → ν) (pred : String) (is : List (Instruction ι))
    (w : ν) (stack : PyStack ν) :
    ∃ stack', execBlock constant (fun _ _ => some w) pred stack (is.map visitInstruction) =
        some stack' ∧
      ∀ key, (stack key = some w ∨ ∃ i ∈ is, i.result.map name = some key) →
        stack' key = some w := by
  induction is generalizing stack with
  | nil =>
    refine ⟨stack, rfl, fun key hkey => ?_⟩
    rcases hkey with hkey | ⟨i, hi, -⟩
    · exact hkey
    · exact absurd hi List.not_mem_nil
  | cons i is ih =>
    obtain ⟨stack₁, hfirst, hsome⟩ : ∃ stack₁,
        (visitInstruction i : PyStmt κ ι).exec constant (fun _ _ => some w) pred stack =
          some stack₁ ∧
        ∀ key, (stack key = some w ∨ i.result.map name = some key) → stack₁ key = some w := by
      rw [visitInstruction, PyStmt.exec]
      cases i.result.map name with
      | none => exact ⟨stack, rfl, fun key hkey => hkey.resolve_right nofun⟩
      | some dst =>
        refine ⟨_, rfl, fun key hkey => ?_⟩
        by_cases hdst : key = dst
        · rw [hdst, Function.update_self]
        · rw [Function.update_of_ne hdst]
          exact hkey.resolve_right fun heq => hdst (Option.some.inj heq).symm
    obtain ⟨stack', hrest, hall⟩ := ih stack₁
    refine ⟨stack', ?_, fun key hkey => hall key ?_⟩
    · rw [List.map_cons, execBlock, List.foldlM_cons, hfirst]
      exact hrest
    · rcases hkey with hkey | ⟨j, hj, hres⟩
      · exact .inl (hsome key (.inl hkey))
      · rcases List.mem_cons.mp hj with rfl | hj
        · exact .inl (hsome key (.inr hres))
        · exact .inr ⟨j, hj, hres⟩

/-! ## The semantics of the phis -/

/-- The statements of the phis are the moves of the edge. -/
theorem exec_phis_edge (hpred : pred ∈ b.preds) :
    execBlock constant op (currBb pred) stack (b.phis.map visitPHINode) =
      run (b.phis.filterMap (move constant (currBb pred))) stack :=
  exec_phis fun _ hphi => Option.isSome_iff_exists.mpr (exists_move constant hphi hpred)

theorem simultaneous_of_sequential (h : Sequential constant b) : Simultaneous constant b := by
  intro op pred hpred stack stack' hexec phi hphi val hval
  rw [execBlock_emitBasicBlock, exec_phis_edge hpred] at hexec
  obtain ⟨stack₁, hmoves, hrest⟩ := Option.bind_eq_some_iff.mp hexec
  have hagree : (b.phis.filterMap (move constant (currBb pred))).Pairwise Agree := by
    refine List.pairwise_filterMap.mpr (h.phis.imp fun hpair m hm m' hm' => ?_)
    obtain ⟨e, he, hname, rfl⟩ := of_move hm
    obtain ⟨e', he', hname', rfl⟩ := of_move hm'
    exact hpair e he e' he' (hname.trans hname'.symm)
  obtain ⟨m, hm⟩ := exists_move constant hphi hpred
  have hdone := run_of_agree hagree hmoves m (List.mem_filterMap.mpr ⟨phi, hphi, hm⟩)
  obtain ⟨e, he, hname, rfl⟩ := of_move hm
  rw [exec_instructions_of_ne (h.results (List.ne_nil_of_mem hpred) phi hphi) hrest, eval_get,
    hdone, h.edges phi hphi e he _ hval hname]

/-- A result with the name of a phi takes its place. -/
theorem results_of_simultaneous [Nontrivial ν] (h : Simultaneous constant b)
    (hpred : pred ∈ b.preds) (hphi : phi ∈ b.phis) {i : Instruction ι}
    (hi : i ∈ b.instructions) : i.result.map name ≠ some (name phi.name) := by
  intro hname
  obtain ⟨val, hval⟩ := (b.incoming_iff phi hphi pred).mpr hpred
  obtain ⟨x, -⟩ := exists_pair_ne ν
  obtain ⟨y, hy⟩ := (source constant val).read_full fun _ => x
  obtain ⟨w, hw⟩ := exists_ne y
  obtain ⟨e', hmoves⟩ := exists_run (b.phis.filterMap (move constant (currBb pred))) fun _ => x
  obtain ⟨stack', hexec, hall⟩ := exec_instructions_const constant (currBb pred)
    b.instructions w (full e')
  have hblock : execBlock constant (fun _ _ => some w) (currBb pred) (full fun _ => x)
      (emitBasicBlock b) = some stack' := by
    rw [execBlock_emitBasicBlock, exec_phis_edge hpred, hmoves]
    exact hexec
  have hdone := h _ pred hpred _ _ hblock phi hphi val hval
  rw [hall _ (.inr ⟨i, hi, hname⟩), eval_get, hy] at hdone
  exact hw (Option.some.inj hdone)

/-- Of the moves alone. -/
theorem run_of_simultaneous [Nontrivial ν] (h : Simultaneous constant b)
    (hpred : pred ∈ b.preds) {e : String → ν}
    (hrun : run (b.phis.filterMap (move constant (currBb pred))) (full e) = some stack)
    (hphi : phi ∈ b.phis) (hval : (pred, val) ∈ phi.incoming) :
    stack (name phi.name) = (source constant val).read (full e) := by
  obtain ⟨w, -⟩ := exists_pair_ne ν
  obtain ⟨stack', hexec, -⟩ := exec_instructions_const constant (currBb pred)
    b.instructions w stack
  have hblock : execBlock constant (fun _ _ => some w) (currBb pred) (full e)
      (emitBasicBlock b) = some stack' := by
    rw [execBlock_emitBasicBlock, exec_phis_edge hpred, hrun]
    exact hexec
  rw [← eval_get, ← h _ pred hpred _ _ hblock phi hphi val hval]
  exact (exec_instructions_of_ne (fun i hi => results_of_simultaneous h hpred hphi hi) hexec).symm

theorem sequential_of_simultaneous [Nontrivial ν] (h : Simultaneous constant b) :
    Sequential constant b := by
  have hedges : ∀ phi ∈ b.phis, ∀ e ∈ phi.incoming, ∀ e' ∈ phi.incoming, name e.1 = name e'.1 →
      source constant e.2 = source constant e'.2 := by
    intro phi hphi e he e' he' hname
    refine Source.ext_full fun env => ?_
    have hpred := (b.incoming_iff phi hphi e.1).mp ⟨e.2, he⟩
    have hpred' := (b.incoming_iff phi hphi e'.1).mp ⟨e'.2, he'⟩
    obtain ⟨env', hrun⟩ := exists_run (b.phis.filterMap (move constant (currBb e.1))) env
    have hrun' := hrun
    rw [currBb, hname] at hrun'
    rw [← run_of_simultaneous h hpred hrun hphi he,
      ← run_of_simultaneous h hpred' hrun' hphi he']
  have hagree : ∀ pred ∈ b.preds,
      (b.phis.filterMap (move constant (currBb pred))).Pairwise Agree := by
    intro pred hpred
    refine agree_of_run fun env env' hrun m hm => ?_
    obtain ⟨phi, hphi, hm⟩ := List.mem_filterMap.mp hm
    obtain ⟨e, he, hname, rfl⟩ := of_move hm
    obtain ⟨val, hval⟩ := (b.incoming_iff phi hphi pred).mpr hpred
    rw [hedges phi hphi e he _ hval hname]
    exact run_of_simultaneous h hpred hrun hphi hval
  refine ⟨hedges, List.pairwise_iff_forall_sublist.mpr ?_, fun hpreds phi hphi i hi => ?_⟩
  · intro phi phi' hsub e he e' he' hname
    have hphi : phi ∈ b.phis := hsub.subset List.mem_cons_self
    have hphi' : phi' ∈ b.phis := hsub.subset (List.mem_cons_of_mem _ List.mem_cons_self)
    have hpred := (b.incoming_iff phi hphi e.1).mp ⟨e.2, he⟩
    obtain ⟨m, hm⟩ := exists_move constant hphi hpred
    obtain ⟨m', hm'⟩ := exists_move constant hphi' hpred
    have hpair := List.pairwise_iff_forall_sublist.mp
      (List.pairwise_filterMap.mp (hagree e.1 hpred)) hsub m hm m' hm'
    obtain ⟨d, hd, hname₁, rfl⟩ := of_move hm
    obtain ⟨d', hd', hname₂, rfl⟩ := of_move hm'
    rw [hedges phi hphi d hd e he hname₁,
      hedges phi' hphi' d' hd' e' he' (hname₂.trans hname)] at hpair
    exact hpair
  · obtain ⟨pred, hpred⟩ := List.exists_mem_of_ne_nil _ hpreds
    exact results_of_simultaneous h hpred hphi hi

/-- The emitted block gives its phis their values at once exactly if it may run them one by one. -/
theorem simultaneous_iff [Nontrivial ν] : Simultaneous constant b ↔ Sequential constant b :=
  ⟨sequential_of_simultaneous, simultaneous_of_sequential⟩

/-- A loop of two phis, which take the values `x` and `y` along its back edge. -/
def loopBlock (x y : String) : BasicBlock Bool Unit where
  preds := ["%entry", "%loop"]
  phis := [⟨"%a", [("%entry", .constant false), ("%loop", .instruction x)]⟩,
    ⟨"%b", [("%entry", .constant true), ("%loop", .instruction y)]⟩]
  instructions := []
  incoming_iff := by
    intro phi hphi bb
    rcases List.mem_cons.mp hphi with rfl | hphi
    · simp [exists_or]
    · rw [List.mem_singleton.mp hphi]
      simp [exists_or]

/-- The phis are shifted: the first one takes the value of the second. -/
theorem exists_simultaneous : Simultaneous (id : Bool → Bool) (loopBlock "%b" "%c") := by
  have hblocks : name "%entry" ≠ name "%loop" := by decide +kernel
  have hphis : name "%a" ≠ name "%b" := by decide +kernel
  have hread : name "%c" ≠ name "%a" := by decide +kernel
  refine simultaneous_iff.mpr ⟨?_, ?_, fun _ _ _ i hi => absurd hi List.not_mem_nil⟩
  · simp [loopBlock, hblocks, hblocks.symm, -Prod.forall]
  · simp [loopBlock, hblocks, hblocks.symm, Agree, source, PyInstVisitor.get, hphis, hread,
      -Prod.forall]

/-- The phis are swapped: the second one takes the new value of the first. -/
theorem not_forall_simultaneous :
    ¬∀ b : BasicBlock Bool Unit, Simultaneous (id : Bool → Bool) b := by
  intro hall
  have hphis : name "%b" ≠ name "%a" := by decide +kernel
  have hpair := (sequential_of_simultaneous (hall (loopBlock "%b" "%a"))).phis
  have hagree := (List.pairwise_cons.mp hpair).1 _ List.mem_cons_self
    ("%loop", .instruction "%b") (by simp) ("%loop", .instruction "%a") (by simp) rfl
  exact hphis (Source.slot.inj (hagree.1 rfl))

end L4Thread.Irpy
