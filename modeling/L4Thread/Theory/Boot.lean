import L4Thread.Theory.Effect

/-!
# The thread table after the boot

`wp_initRootServers` is the rule for the creation of the root servers: an invariant that is indexed
by the servers created so far. With it, the threads after the boot are the root servers.
-/

namespace L4Thread

open TrapM Kernel

variable {s t : KState} {p : TcbPtr} {cfg : BootConfig} {tid sched pager : ThreadId}
  {tids : List ThreadId}

/-! ## Creation of a root server -/

@[grind ←] theorem keepsIdent_startRootServer : KeepsIdent (startRootServer p cfg) := by
  unfold startRootServer
  grind

theorem keepsOthers_createRootServer :
    KeepsOthers (getTcb tid) (createRootServer tid sched pager cfg) := by
  unfold createRootServer
  dsimp only
  repeat' with_reducible refine Keeps.bind ?_ fun _ => ?_
  all_goals grind

/-- A root server is an activated thread in a space of its own. -/
theorem wp_createRootServer : wp (fun _ => True) (createRootServer tid sched pager cfg)
    (fun sp t => ∃ u, t.tcbIdent (getTcb tid) = ⟨tid, ⟨rootUtcbStart⟩, some u, some sp, sched⟩)
    s := by
  rw [createRootServer, wp_bind]
  refine wp_allocateSpace fun addr kmem halloc => ?_
  simp only [createInactive, initSpace, setSpace, addTcb, setUtcbLocation, wp_bind, wp_init,
    wp_modTcb, wp_modSpace, wp_derefSpace, Function.update_self, Function.update_idem]
  refine ⟨fun _ => trivial, fun sp hsp => ?_⟩
  obtain rfl := Option.some.inj hsp
  refine wp_mono wp_activate fun _ t1 hpost => ?_
  obtain ⟨u, ht1⟩ := hpost
  refine keepsIdent_startRootServer.wp fun _ t2 h2 => ⟨u, ?_⟩
  rw [KState.tcbIdent_eq h2, ht1]
  simp [KState.tcbIdent, Tcb.ident, Tcb.init]

/-! ## The rule for the root servers -/

/-- The root servers that a boot can create. -/
def rootTids : List ThreadId := [sigma0Tid, sigma1Tid, rootServerTid]

theorem getTcb_rootTids_injective {tid' : ThreadId} (h : tid ∈ rootTids) (h' : tid' ∈ rootTids)
    (hne : tid ≠ tid') : getTcb tid ≠ getTcb tid' := by
  have hall : ∀ tid ∈ rootTids, ∀ tid' ∈ rootTids, tid ≠ tid' → getTcb tid ≠ getTcb tid' := by
    decide
  exact hall tid h tid' h' hne

/-- What holds of the root servers created so far, if every creation keeps it. -/
theorem wp_initRootServers {I : List ThreadId → KState → Prop}
    (hcreate : ∀ tids tid pager s, tid ∈ rootTids → tid ∉ tids → (∀ tid ∈ tids, tid ∈ rootTids) →
      I tids s → wp (fun _ => True) (createRootServer tid rootServerTid pager cfg)
        (fun _ t => I (tid :: tids) t) s)
    (hspaces : ∀ tids s sp0 sp1 sp2, I tids s →
      I tids { s with sigma0Space := sp0, sigma1Space := sp1, roottaskSpace := sp2 })
    (h : I [] s) :
    wp (fun _ => True) (initRootServers cfg) (fun _ t => ∃ tids, I tids t ∧
      (cfg.rootServer → rootServerTid ∈ tids) ∧ ∀ tid ∈ tids, tid ∈ rootTids) s := by
  have hroot : ∀ tids (t : KState), I tids t → rootServerTid ∉ tids →
      (∀ tid ∈ tids, tid ∈ rootTids) → wp (fun _ => True) (do
        if cfg.rootServer then
          let sp ← createRootServer rootServerTid rootServerTid sigma0Tid cfg
          modify fun s => { s with roottaskSpace := some sp }) (fun _ t => ∃ tids, I tids t ∧
        (cfg.rootServer → rootServerTid ∈ tids) ∧ ∀ tid ∈ tids, tid ∈ rootTids) t := by
    intro tids t ht hnot htids
    rw [wp_ite]
    split
    · rw [wp_bind]
      refine wp_mono (hcreate _ _ _ _ (by decide) hnot htids ht) fun sp t1 ht1 => ?_
      refine ⟨_, hspaces _ _ _ _ (some sp) ht1, fun _ => by simp, fun tid htid => ?_⟩
      rcases List.mem_cons.mp htid with rfl | htid
      · decide
      · exact htids tid htid
    · rename_i hcfg
      exact ⟨tids, ht, fun h => absurd h hcfg, htids⟩
  rw [initRootServers, wp_bind]
  refine wp_mono (hcreate _ _ _ _ (by decide) (by simp) (by simp) h) fun sp t ht => ?_
  rw [wp_bind, wp_modify, wp_ite]
  have ht' := hspaces _ _ (some sp) t.sigma1Space t.roottaskSpace ht
  split
  · rw [wp_bind]
    refine wp_mono (hcreate _ _ _ _ (by decide) (by decide) (by decide) ht') fun sp1 t1 ht1 => ?_
    rw [wp_bind, wp_modify]
    exact hroot _ _ (hspaces _ _ _ (some sp1) _ ht1) (by decide) (by decide)
  · exact hroot _ _ ht' (by decide) (by decide)

/-! ## The thread table -/

/-- The existing threads are the root servers `tids`. -/
structure RootTable (tids : List ThreadId) (s : KState) : Prop where
  only {p : TcbPtr} : p ≠ .idle → (s.tcb p).isExisting → ∃ tid ∈ tids, p = getTcb tid
  ident {tid : ThreadId} : tid ∈ tids →
    ∃ u sp, s.tcbIdent (getTcb tid) = ⟨tid, ⟨rootUtcbStart⟩, some u, some sp, rootServerTid⟩

theorem RootTable.congr (h : RootTable tids s) (ht : t.tcbIdent = s.tcbIdent) :
    RootTable tids t := by
  refine ⟨fun hp hex => h.only hp ?_, fun htid => ?_⟩
  · rwa [← KState.isExisting_eq (congrFun ht _)]
  · rw [ht]
    exact h.ident htid

theorem RootTable.create (h : RootTable tids s)
    (hne : ∀ tid' ∈ tids, getTcb tid' ≠ getTcb tid) :
    wp (fun _ => True) (createRootServer tid rootServerTid pager cfg)
      (fun _ t => RootTable (tid :: tids) t) s := by
  rw [wp_iff_ok]
  intro sp t ht
  obtain ⟨u, hself⟩ := wp_iff_ok.mp wp_createRootServer sp t ht
  have hothers : ∀ q ≠ getTcb tid, t.tcbIdent q = s.tcbIdent q := fun q hq =>
    congrFun (keepsOthers_createRootServer s sp t ht) ⟨q, hq⟩
  refine ⟨fun {p} hp hex => ?_, fun htid => ?_⟩
  · rcases eq_or_ne p (getTcb tid) with rfl | hpt
    · exact ⟨tid, by simp, rfl⟩
    · rw [KState.isExisting_eq (hothers p hpt)] at hex
      obtain ⟨tid', htid', rfl⟩ := h.only hp hex
      exact ⟨tid', by simp [htid'], rfl⟩
  · rcases List.mem_cons.mp htid with rfl | htid
    · exact ⟨u, sp, hself⟩
    · rw [hothers _ (hne _ htid)]
      exact h.ident htid

theorem keepsTcbIdent_initKernelSpace : KeepsTcbIdent initKernelSpace := by
  unfold initKernelSpace
  grind

theorem RootTable.initScheduler (h : RootTable [] s) :
    wp (fun _ => True) initScheduler (fun _ t => RootTable [] t) s := by
  have hkeep : KeepsOthers .idle Kernel.initScheduler := by
    unfold Kernel.initScheduler
    grind
  refine hkeep.wp fun _ t ht => ⟨fun {p} hp hex => h.only hp ?_, by simp⟩
  rwa [← KState.isExisting_eq (congrFun ht ⟨p, hp⟩)]

theorem RootTable.initKernelThreads (h : RootTable [] s) :
    wp (fun _ => True) initKernelThreads (fun _ t => RootTable [] t) s := by
  simp only [Kernel.initKernelThreads, createKernelThread, setPriority, setState, wp_bind, wp_init,
    wp_modTcb, Function.update_self, Function.update_idem]
  refine ⟨fun {p} hp hex => ?_, by simp⟩
  rcases eq_or_ne p (getTcb kernelTid) with rfl | hpk
  · simp [Tcb.isExisting, Tcb.init] at hex
  · exact h.only hp (by simpa [hpk] using hex)

theorem RootTable.initRootServers (h : RootTable [] s) :
    wp (fun _ => True) (initRootServers cfg) (fun _ t => ∃ tids, RootTable tids t ∧
      (cfg.rootServer → rootServerTid ∈ tids) ∧ ∀ tid ∈ tids, tid ∈ rootTids) s := by
  refine wp_initRootServers (fun tids tid pager s htid hnot htids hs => hs.create ?_)
    (fun tids s _ _ _ hs => hs.congr rfl) h
  rintro tid' htid'
  refine getTcb_rootTids_injective (htids _ htid') htid ?_
  rintro rfl
  exact hnot htid'

/-- The thread table after the boot. -/
theorem rootTable_boot (h : boot cfg (KState.zero cfg) = .ok ((), s)) :
    ∃ tids, RootTable tids s ∧ (cfg.rootServer → rootServerTid ∈ tids) ∧
      ∀ tid ∈ tids, tid ∈ rootTids := by
  have hzero : RootTable [] (KState.zero cfg) :=
    ⟨fun _ hex => absurd hex (by simp [KState.zero, Tcb.zero, Tcb.isExisting]), by simp⟩
  suffices wp (fun _ => True) (boot cfg) (fun _ t => ∃ tids, RootTable tids t ∧
      (cfg.rootServer → rootServerTid ∈ tids) ∧ ∀ tid ∈ tids, tid ∈ rootTids) (KState.zero cfg) from
    wp_iff_ok.mp this () s h
  rw [boot, wp_bind]
  refine keepsTcbIdent_initKernelSpace.wp fun _ t1 h1 => ?_
  rw [wp_bind]
  refine wp_mono (hzero.congr h1).initScheduler fun _ t2 h2 => ?_
  rw [wp_bind]
  exact wp_mono h2.initKernelThreads fun _ t3 h3 => h3.initRootServers

end L4Thread
