import Lace.HBGraph.Basic
import Lace.LockSet.Basic
import Lace.ThreadTree.Basic

/-!
# Building the happens-before graph

`HBGraph::build` and its six builders. A release is ordered before every acquire of its lock class
in another thread that may run at the same time, a child's return before what follows its join,
a completion signal before what follows the wait, a registration before the callback's entry, and
the end of an RCU read section before the synchronization.

The iteration orders of the hash containers are part of the input.

## Main definitions

* `HBInput`: what the builders read;
* `HBInput.build`: the graph;
* `HBInput.Edge`: the edges, read off from the input.

## Main results

* `HBInput.mem_build`: the graph has exactly these edges.
-/

namespace Lace

/-- `Family` of `buildRCUEdges`, without `Unknown`. -/
inductive RCUFamily
  | vanilla | bh | sched | srcu | tasks
  deriving DecidableEq, Repr

/-- `syncFamily`: the family of readers that a call waits for. -/
def syncFamily (n : String) : Option RCUFamily :=
  if n ∈ ["synchronize_rcu", "synchronize_rcu_expedited", "rcu_barrier"] then some .vanilla
  else if n = "synchronize_rcu_bh" then some .bh
  else if n ∈ ["synchronize_sched", "synchronize_sched_expedited"] then some .sched
  else if n ∈ ["synchronize_srcu", "synchronize_srcu_expedited"] then some .srcu
  else if n ∈ ["synchronize_rcu_tasks", "synchronize_rcu_tasks_rude", "rcu_barrier_tasks",
      "rcu_barrier_tasks_rude"] then some .tasks
  else none

/-- `unlockFamily`: the family whose readers a call ends. -/
def unlockFamily (n : String) : Option RCUFamily :=
  if n = "rcu_read_unlock" then some .vanilla
  else if n = "rcu_read_unlock_bh" then some .bh
  else if n ∈ ["rcu_read_unlock_sched", "rcu_read_unlock_sched_notrace"] then some .sched
  else if n ∈ ["srcu_read_unlock", "srcu_read_unlock_nmisafe"] then some .srcu
  else none

/-- `kRegistrationAPIs`: functions that hand a callback over, after which it may run. -/
def kRegistrationAPIs : List String :=
  ["request_irq", "request_threaded_irq", "devm_request_irq", "devm_request_threaded_irq",
    "devm_request_any_context_irq", "queue_work", "queue_work_on", "queue_delayed_work",
    "queue_delayed_work_on", "schedule_work", "schedule_delayed_work", "wake_up_process",
    "kthread_run", "kthread_create", "kthread_create_on_node", "kthread_create_on_cpu",
    "tasklet_init", "tasklet_setup", "timer_setup", "init_timer", "INIT_WORK",
    "INIT_DELAYED_WORK", "INIT_DEFERRABLE_WORK", "hrtimer_init", "setup_timer",
    "serdev_device_set_client_ops", "register_netdev", "register_netdevice", "register_chrdev",
    "register_chrdev_region", "misc_register", "device_register", "device_add",
    "platform_device_register", "input_register_device", "i2c_add_driver",
    "spi_register_driver", "register_filesystem", "cdev_add", "cdev_init",
    "video_register_device", "snd_device_new", "register_pernet_subsys",
    "register_pernet_device", "register_netevent_notifier", "register_inetaddr_notifier",
    "register_netdevice_notifier", "rtnl_register_module", "rtnl_register",
    "nl_table_register", "genl_register_family", "register_sysctl", "register_sysctl_table",
    "proc_create", "debugfs_create_file", "sysfs_create_group", "device_add_groups",
    "devm_device_add_groups", "device_add_group", "devm_device_add_group",
    "device_create_file", "sysfs_create_files", "sysfs_create_link", "sysfs_create_bin_file",
    "kobject_uevent", "kobject_add", "kobject_init_and_add", "devm_serdev_device_open",
    "devm_input_register_device", "devm_watchdog_register_device", "devm_register_netdev",
    "devm_misc_register", "devm_thermal_zone_of_sensor_register",
    "devm_iio_device_register", "devm_hwmon_device_register", "devm_led_classdev_register",
    "rcu_assign_pointer", "smp_store_release", "cros_ec_register"]

/-- What `HBGraph::build` reads. -/
structure HBInput where
  /-- `ThreadCreationTree::getInstance`, with its graph. -/
  tree : ThreadCreationTree
  /-- What the parallelism test reads from outside the tree. -/
  filters : EntryFilters
  /-- The module behind the nodes. -/
  ir : IRModule
  /-- `LSAnalysis::getLocks`, in iteration order. -/
  locks : List Lock
  /-- Lock objects are numbered. -/
  id_inj : ∀ l ∈ locks, ∀ l' ∈ locks, l.id = l'.id → l = l'
  /-- The function node of `Thread::getThreadMainFunction`. -/
  mainFuncNode : ThreadId → Option NodeId
  /-- The environment variables. -/
  env : LaceEnv
  /-- The iteration order of `syncByFamily`. -/
  rcuFamilies : List RCUFamily
  /-- It is an order of the families. -/
  rcuFamilies_perm : rcuFamilies.Perm [.vanilla, .bh, .sched, .srcu, .tasks]
  /-- The iteration order of the threads of a family in `unlocksByFamilyThread`. -/
  rcuThreads : RCUFamily → List ThreadId
  /-- It is an order of the threads. -/
  rcuThreads_perm : ∀ fam, (rcuThreads fam).Perm tree.threads

namespace HBInput

/-- The order of the declaration is one of the orders of the families. -/
theorem declared_families_perm : [RCUFamily.vanilla, .bh, .sched, .srcu, .tasks].Perm
    [.vanilla, .bh, .sched, .srcu, .tasks] := List.Perm.refl _

variable (I : HBInput)

/-- The graph of the input. -/
def ccpg : CCPG := I.tree.ccpg

/-- `findThread`: the first thread that runs the node. -/
def findThread (n : NodeId) : Option ThreadId :=
  I.tree.threads.find? fun t => n ∈ (I.tree.thread t).nodes

/-- `mayThreadsRunConcurrently`: what the thread tree says about two threads. -/
def mayThreadsRunConcurrently (t1 t2 : ThreadId) : Bool :=
  I.tree.mayThreadsRunConcurrently I.filters t1 t2

/-! ### The builders -/

/-- The kind and the note of the edge that a `CCPGEdge` becomes. -/
def programOrderLabel : CCPGEdgeType → HBEdgeKind × String
  | .order => (.programOrder, "cfg")
  | .call => (.callReturn, "call")
  | .hb => (.forkToEntry, "fork")

/-- `buildProgramOrderEdges`: the edges of the graph itself: control flow and calls. -/
def buildProgramOrderEdges : List HBEdge :=
  I.ccpg.edges.map fun e =>
    ⟨e.src, e.dst, (programOrderLabel e.type).1, (programOrderLabel e.type).2⟩

/-- A lock joins the first class whose front aliases it, or opens a class. -/
def placeLock (l : Lock) : List (List Lock) → List (List Lock)
  | [] => [[l]]
  | cls :: classes =>
      if cls.head?.any fun front => I.ir.isLockAlias front.acquire l.acquire then
        (cls ++ [l]) :: classes
      else cls :: placeLock l classes

/-- The classes of `buildLockEdges`. -/
def lockClasses : List (List Lock) := I.locks.foldl (fun classes l => I.placeLock l classes) []

/-- The edge from the release of `lr` to the acquire of `la`, if there is one. -/
def lockEdge (lr la : Lock) : Option HBEdge :=
  lr.release.bind fun relN =>
    if la.id = lr.id then none
    else
      (I.findThread relN).bind fun tr => (I.findThread la.acquire).bind fun ta =>
        if tr = ta then none
        else if !I.mayThreadsRunConcurrently tr ta then none
        else some ⟨relN, la.acquire, .lockReleaseAcquire, "lock" ++ toString lr.id⟩

/-- `buildLockEdges`: a release comes before every acquire of an aliasing lock that may follow
it. -/
def buildLockEdges : List HBEdge :=
  I.lockClasses.flatMap fun cls => cls.flatMap fun lr => cls.filterMap fun la => I.lockEdge lr la

/-- The return nodes of a thread. -/
def exits (child : ThreadId) : List NodeId :=
  (I.tree.thread child).nodes.filter fun n => I.ccpg.type n = .return

/-- `buildForkJoinEdges`: a child ends before what its parent does after the join. -/
def buildForkJoinEdges : List HBEdge :=
  I.tree.threads.flatMap fun child =>
    match (I.tree.thread child).joinNode with
    | none => []
    | some join =>
        (I.ccpg.orderSuccs join).flatMap fun next =>
          (I.exits child).map fun ex => ⟨ex, next, .joinFromExit, "join"⟩

/-- `buildCompletionEdges`: a signal comes before the waits for the same completion. -/
def buildCompletionEdges : List HBEdge :=
  (I.ccpg.getNodesByType .condSignal).flatMap fun c =>
    (I.ccpg.getNodesByType .condWait).flatMap fun w =>
      if I.ir.completionAlias I.ccpg c w then
        (I.ccpg.orderSuccs w).map fun nxt => ⟨c, nxt, .completion, "complete->after_wait"⟩
      else []

/-- `entryFnToThread`: the last thread whose main function has the name. -/
def entryFnToThread (name : String) : Option ThreadId :=
  I.tree.threads.reverse.find? fun t => (I.mainFuncNode t).bind I.ir.cpgNodeName = some name

/-- `getThreadEntryNode`: the first `ORDER` successor of the function node, or that node. -/
def threadEntryNode (t : ThreadId) : Option NodeId :=
  (I.mainFuncNode t).map fun funcNode => ((I.ccpg.orderSuccs funcNode).head?).getD funcNode

/-- The name of the function that a call site calls. -/
def calleeName (n : NodeId) (ci : CallInst) : String :=
  ci.calledFunction.getD (I.ir.nodeName n)

/-- The edges of one node that may be a registration. -/
def lifecycleEdgesAt (n : NodeId) : List HBEdge :=
  if !I.ccpg.isCallSite n then []
  else
    match I.ir.callInst n with
    | none => []
    | some ci =>
        if I.calleeName n ci ∉ kRegistrationAPIs then []
        else
          (I.ir.callTargets ci).filterMap fun fn =>
            ((I.entryFnToThread fn).bind I.threadEntryNode).map fun tgtEntry =>
              ⟨n, tgtEntry, .lifecycleFlag, "register:" ++ I.calleeName n ci ++ "->" ++ fn⟩

/-- `buildLifecycleFlagEdges`: every end of an edge is visited once. -/
def buildLifecycleFlagEdges : List HBEdge :=
  (I.ccpg.edges.flatMap fun e => [e.src, e.dst]).eraseDups.flatMap I.lifecycleEdgesAt

/-- The synchronization sites of a family. -/
def syncSites (fam : RCUFamily) : List NodeId :=
  (I.ccpg.getNodesByType .join).filter fun n => syncFamily (I.ir.nodeName n) = some fam

/-- The unlock sites of a family in a thread. -/
def unlockSites (fam : RCUFamily) (t : ThreadId) : List NodeId :=
  (I.tree.thread t).nodes.filter fun n =>
    I.ccpg.type n = .release && decide (unlockFamily (I.ir.nodeName n) = some fam)

/-- `srcuOperand`: the domain that a call on sleepable RCU is about. -/
def srcuOperand (n : NodeId) : Option ValueId := (I.ir.firstArg n).map I.ir.stripPointerCasts

/-- The synchronization at `s` waits for the read section that ends with `u`. -/
def rcuPairs (fam : RCUFamily) (s u : NodeId) : Bool :=
  fam ≠ .srcu || (I.srcuOperand s).isSome && decide (I.srcuOperand s = I.srcuOperand u)

/-- The thread of a synchronization site does not exclude the readers of `tr`. -/
def rcuReader (s : NodeId) (tr : ThreadId) : Bool :=
  match I.findThread s with
  | none => true
  | some tw => tr ≠ tw && I.mayThreadsRunConcurrently tw tr

/-- The edges of `buildRCUEdges` in the order in which it tries them. -/
def rcuCandidates : List HBEdge :=
  I.rcuFamilies.flatMap fun fam => (I.syncSites fam).flatMap fun s =>
    ((I.rcuThreads fam).filter (I.rcuReader s)).flatMap fun tr =>
      ((I.unlockSites fam tr).filter (I.rcuPairs fam s)).map fun u =>
        ⟨u, s, .rcuSync, "rcu_unlock->synchronize"⟩

/-- `buildRCUEdges`: it stops when it has added `HB_RCU_MAX_EDGES` edges. -/
def buildRCUEdges : List HBEdge :=
  I.rcuCandidates.take (envInt I.env.hbRcuMaxEdges 4000).toNat

/-- `HBGraph::build`: all passes, in the order of the source. -/
def build : HBGraph where
  edges := I.buildProgramOrderEdges ++ I.buildLockEdges ++ I.buildForkJoinEdges ++
    I.buildCompletionEdges ++ I.buildLifecycleFlagEdges ++ I.buildRCUEdges

/-! ### The edges, read off from the input -/

/-- The edges of the graph. -/
inductive Edge : NodeId → NodeId → HBEdgeKind → Prop
  /-- Control flow, a call, or a fork. -/
  | program (e : CCPGEdge) : e ∈ I.ccpg.edges → Edge e.src e.dst (programOrderLabel e.type).1
  /-- A lock is handed over to another thread. -/
  | lock {cls : List Lock} {lr la : Lock} {relN : NodeId} {tr ta : ThreadId} :
      cls ∈ I.lockClasses → lr ∈ cls → la ∈ cls → la.id ≠ lr.id → lr.release = some relN →
      I.findThread relN = some tr → I.findThread la.acquire = some ta → tr ≠ ta →
      I.mayThreadsRunConcurrently tr ta = true → Edge relN la.acquire .lockReleaseAcquire
  /-- A child has returned when its join is over. -/
  | join {child : ThreadId} {join next ex : NodeId} : child ∈ I.tree.threads →
      (I.tree.thread child).joinNode = some join → I.ccpg.OrderStep join next →
      ex ∈ I.exits child → Edge ex next .joinFromExit
  /-- A completion was signalled when the wait is over. -/
  | completion {c w next : NodeId} : c ∈ I.ccpg.getNodesByType .condSignal →
      w ∈ I.ccpg.getNodesByType .condWait → I.ir.completionAlias I.ccpg c w = true →
      I.ccpg.OrderStep w next → Edge c next .completion
  /-- A callback runs after its registration. -/
  | register {n tgtEntry : NodeId} {ci : CallInst} {fn : String} : (∃ e ∈ I.ccpg.edges,
      n = e.src ∨ n = e.dst) → I.ccpg.isCallSite n = true → I.ir.callInst n = some ci →
      I.calleeName n ci ∈ kRegistrationAPIs → fn ∈ I.ir.callTargets ci →
      (I.entryFnToThread fn).bind I.threadEntryNode = some tgtEntry → Edge n tgtEntry .lifecycleFlag
  /-- A read section has ended when the synchronization is over, up to the cap. -/
  | rcu {e : HBEdge} : e ∈ I.buildRCUEdges → Edge e.src e.dst .rcuSync

variable {I} {m n : NodeId} {kind : HBEdgeKind}

theorem lockEdge_eq_some {lr la : Lock} {e : HBEdge} : I.lockEdge lr la = some e ↔
    ∃ relN, lr.release = some relN ∧ la.id ≠ lr.id ∧ ∃ tr, I.findThread relN = some tr ∧
      ∃ ta, I.findThread la.acquire = some ta ∧ tr ≠ ta ∧
        I.mayThreadsRunConcurrently tr ta = true ∧
        e = ⟨relN, la.acquire, .lockReleaseAcquire, "lock" ++ toString lr.id⟩ := by
  simp only [lockEdge, Option.bind_eq_some_iff, Option.ite_none_left_eq_some,
    Bool.not_eq_true', Bool.not_eq_false, Option.some.injEq, @eq_comm _ _ e]

theorem mem_buildLockEdges {e : HBEdge} : e ∈ I.buildLockEdges ↔
    ∃ cls ∈ I.lockClasses, ∃ lr ∈ cls, ∃ la ∈ cls, I.lockEdge lr la = some e := by
  simp [buildLockEdges]

theorem mem_buildForkJoinEdges {e : HBEdge} : e ∈ I.buildForkJoinEdges ↔
    ∃ child ∈ I.tree.threads, ∃ join, (I.tree.thread child).joinNode = some join ∧
      ∃ next, I.ccpg.OrderStep join next ∧ ∃ ex ∈ I.exits child,
        (⟨ex, next, .joinFromExit, "join"⟩ : HBEdge) = e := by
  rw [buildForkJoinEdges, List.mem_flatMap]
  refine exists_congr fun child => and_congr_right fun _ => ?_
  cases (I.tree.thread child).joinNode <;> simp

theorem mem_buildCompletionEdges {e : HBEdge} : e ∈ I.buildCompletionEdges ↔
    ∃ c ∈ I.ccpg.getNodesByType .condSignal, ∃ w ∈ I.ccpg.getNodesByType .condWait,
      I.ir.completionAlias I.ccpg c w = true ∧ ∃ next, I.ccpg.OrderStep w next ∧
        (⟨c, next, .completion, "complete->after_wait"⟩ : HBEdge) = e := by
  simp only [buildCompletionEdges, List.mem_flatMap, List.mem_ite_nil_right, List.mem_map,
    CCPG.mem_orderSuccs]

theorem mem_lifecycleEdgesAt {x : NodeId} {e : HBEdge} : e ∈ I.lifecycleEdgesAt x ↔
    I.ccpg.isCallSite x = true ∧ ∃ ci, I.ir.callInst x = some ci ∧
      I.calleeName x ci ∈ kRegistrationAPIs ∧ ∃ fn ∈ I.ir.callTargets ci, ∃ tgtEntry,
        (I.entryFnToThread fn).bind I.threadEntryNode = some tgtEntry ∧
          (⟨x, tgtEntry, .lifecycleFlag, "register:" ++ I.calleeName x ci ++ "->" ++ fn⟩ :
            HBEdge) = e := by
  unfold lifecycleEdgesAt
  by_cases hcall : I.ccpg.isCallSite x = true
  · cases hci : I.ir.callInst x with
    | none => simp [hcall]
    | some ci =>
        by_cases hname : I.calleeName x ci ∈ kRegistrationAPIs
        · simp only [hcall, hname, Bool.not_true, Bool.false_eq_true, if_false, not_true,
            List.mem_filterMap, Option.map_eq_some_iff, true_and, Option.some.injEq,
            exists_eq_left']
        · simp [hcall, hname]
  · simp [hcall]

theorem mem_buildLifecycleFlagEdges {e : HBEdge} : e ∈ I.buildLifecycleFlagEdges ↔
    ∃ x, (∃ c ∈ I.ccpg.edges, x = c.src ∨ x = c.dst) ∧ e ∈ I.lifecycleEdgesAt x := by
  simp [buildLifecycleFlagEdges]

theorem kind_of_mem_buildRCUEdges {e : HBEdge} (he : e ∈ I.buildRCUEdges) : e.kind = .rcuSync := by
  have hmem := List.mem_of_mem_take he
  simp only [rcuCandidates, List.mem_flatMap, List.mem_map] at hmem
  obtain ⟨fam, -, s, -, tr, -, u, -, rfl⟩ := hmem
  rfl

/-- The graph has exactly the edges of the input. -/
theorem mem_build : (∃ e ∈ I.build.edges, e.src = m ∧ e.dst = n ∧ e.kind = kind) ↔
    I.Edge m n kind := by
  simp only [build, List.mem_append, or_assoc]
  constructor
  · -- in the order of the builders: program order, locks, joins, completions, registrations, RCU
    rintro ⟨e, he, rfl, rfl, rfl⟩
    rcases he with he | he | he | he | he | he
    · obtain ⟨c, hc, rfl⟩ := List.mem_map.mp he
      exact .program c hc
    · obtain ⟨cls, hcls, lr, hlr, la, hla, he⟩ := mem_buildLockEdges.mp he
      obtain ⟨relN, hrel, hid, tr, htr, ta, hta, hne, hmay, rfl⟩ := lockEdge_eq_some.mp he
      exact .lock hcls hlr hla hid hrel htr hta hne hmay
    · obtain ⟨child, hchild, join, hjoin, next, hstep, ex, hex, rfl⟩ :=
        mem_buildForkJoinEdges.mp he
      exact .join hchild hjoin hstep hex
    · obtain ⟨c, hc, w, hw, halias, next, hstep, rfl⟩ := mem_buildCompletionEdges.mp he
      exact .completion hc hw halias hstep
    · obtain ⟨x, hx, he⟩ := mem_buildLifecycleFlagEdges.mp he
      obtain ⟨hcall, ci, hci, hname, fn, hfn, tgt, htgt, rfl⟩ := mem_lifecycleEdgesAt.mp he
      exact .register hx hcall hci hname hfn htgt
    · rw [kind_of_mem_buildRCUEdges he]
      exact .rcu he
  · intro h
    -- Each edge of the input is found by its own builder.
    cases h with
    | program c hc => exact ⟨_, Or.inl (List.mem_map_of_mem hc), rfl, rfl, rfl⟩
    | lock hcls hlr hla hid hrel htr hta hne hmay =>
        have hedge := lockEdge_eq_some.mpr ⟨_, hrel, hid, _, htr, _, hta, hne, hmay, rfl⟩
        exact ⟨_, Or.inr (Or.inl (mem_buildLockEdges.mpr ⟨_, hcls, _, hlr, _, hla, hedge⟩)), rfl,
          rfl, rfl⟩
    | join hchild hjoin hstep hex =>
        exact ⟨_, Or.inr (Or.inr (Or.inl (mem_buildForkJoinEdges.mpr
          ⟨_, hchild, _, hjoin, _, hstep, _, hex, rfl⟩))), rfl, rfl, rfl⟩
    | completion hc hw halias hstep =>
        exact ⟨_, Or.inr (Or.inr (Or.inr (Or.inl (mem_buildCompletionEdges.mpr
          ⟨_, hc, _, hw, halias, _, hstep, rfl⟩)))), rfl, rfl, rfl⟩
    | register hx hcall hci hname hfn htgt =>
        exact ⟨_, Or.inr (Or.inr (Or.inr (Or.inr (Or.inl (mem_buildLifecycleFlagEdges.mpr
          ⟨_, hx, mem_lifecycleEdgesAt.mpr ⟨hcall, _, hci, hname, _, hfn, _, htgt, rfl⟩⟩))))),
          rfl, rfl, rfl⟩
    | rcu he =>
        exact ⟨_, Or.inr (Or.inr (Or.inr (Or.inr (Or.inr he)))), rfl, rfl,
          kind_of_mem_buildRCUEdges he⟩

end HBInput

end Lace
