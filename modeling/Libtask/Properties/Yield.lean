import Libtask.Abstract.Resumed
import Libtask.Abstract.Schedule
import Libtask.Properties.Placement
import Mathlib.Data.Fintype.Card

/-! A task that yields runs again after the tasks that were ready, each of them once. -/
namespace Libtask
open Function Runs Relation

section
variable {lab : Option Call} {a b c : Sys Queues} {pl : Placement} {t : TaskPtr}

/-- A call that resumes, other than in the poller, comes to its end with the next move. -/
theorem Move.of_resume {x : Context} (hI : Inv a pl) (m : Move lab a b) (h : a.Resuming t x)
    (hstart : x ≠ .taskstart) (hfd : ∀ n, x ≠ .fdtask n) :
    (∃ e : Event, e.neutral = true ∧ b = a.emit e) ∨ b.control ≠ .resume := by
  have hctl : a.control ≠ .user := by simp [h.2.1]
  cases m.resumed hI h.1 hctl with
  | note e he => exact .inl ⟨e, he, rfl⟩
  | halt v => exact .inr (by simp [Sys.halt])
  | back | altback => exact .inr (by simp)
  | system hx => exact absurd (h.2.2.symm.trans hx) hstart
  | fd hx =>
    rcases hx with ⟨hx, _⟩ | ⟨n, hx⟩
    · exact absurd (h.2.2.symm.trans hx) hstart
    · exact absurd (h.2.2.symm.trans hx) (hfd n)
  | rw _ m =>
    right
    cases m with
    | rback | wback => simp
    | racquire hu | rblock hu | runlock hu | wacquire hu | wblock hu | wunlock hu =>
      exact absurd hu.2 hctl
  | queuing _ m =>
    right
    cases m with
    | qback | sleepback | awake | reacquire => simp
    | qblock => simp [Sys.switch]
    | qacquire hu | qunlock hu | tasksleep hu | wakeup hu => exact absurd hu.2 hctl

/-- Only the scheduler has a task resume. -/
theorem Move.resume_of (hI : Inv a pl) (m : Move lab a b) (hb : b.control = .resume) :
    a.control = .resume ∨ ∃ u, b = a.dispatch u := by
  cases m with
  | dispatch => exact .inr ⟨_, rfl⟩
  | queuing m => exact .inl (m.objMove.of_resume hb)
  | rw m => exact .inl (m.objMove.of_resume hb)
  | exit | stall | exitall | nomem | toomany | unowned | oops | unwritten | hasreaders => cases hb
  | back | altback | taskyield | altblock => cases hb
  | life m =>
    cases m with
    | create | startfd => exact .inl hb
    | taskexit v =>
      rw [taskexit_eq] at hb
      cases hb
  | fd m =>
    cases m with
    | fdcall | fdyield | taskdelay | fdwait => cases hb
    | poll | revents | pollwake | timerwake => exact .inl hb
  | note | altfail | write => exact .inl hb
  | tasksystem =>
    unfold Libtask.tasksystem at hb
    split at hb <;> exact .inl hb
  | @altrun _ b t base i _ _ as u h _ hbase hi hx =>
    obtain ⟨c, evs, _, hok, _⟩ := hI.altrun_of_ok h hbase hi hx
    have hready : (b.readyOpt u).control = b.control := by cases u <;> rfl
    have hctl : b.control = .resume := hready.symm.trans hb
    rw [hok] at hctl
    exact .inl hctl

/-- What is known after `t` yielded at `a`, the run queue being `ts`, with `n` switches so far. -/
structure Yielded (t : TaskPtr) (ts : List TaskPtr) (n : BitVec 32) (new : List Event)
    (a b : Sys Queues) : Prop where
  scheduled : Scheduled new a b
  asleep : t ∉ hist dispatched new →
    t ∈ b.live ∧ (b.task t).context = .taskyield n ∧ b.taskrunning ≠ some t
  awake : hist dispatched new = ts ++ [t] → b.control = .resume → b.Resuming t (.taskyield n)

theorem Yielded.queued {ts : List TaskPtr} {n : BitVec 32} {new new' : List Event}
    (h : Yielded t ts n new a b) (hI : Inv b pl) (m : Move lab b c) (hq : Queued new' b c) :
    Yielded t ts n (new' ++ new) a c := by
  have hD : hist dispatched (new' ++ new) = hist dispatched new := by
    rw [hist_append, hq.idle, List.append_nil]
  constructor
  case scheduled => exact h.scheduled.queued hq
  case asleep =>
    intro ht
    rw [hD] at ht
    obtain ⟨hl, hc, hr⟩ := h.asleep ht
    rcases m.stays_or hI hl hr with hs | ⟨_, rfl⟩
    · refine ⟨hs.live hl, ?_, hs.idle hr⟩
      rw [hs.task.context]
      exact hc
    · have hlog : [.dispatch t] ++ b.log = new' ++ b.log := hq.log
      have hidle := hq.idle
      rw [← List.append_cancel_right hlog] at hidle
      cases hidle
  case awake =>
    intro ht hctl
    rw [hD] at ht
    have hb : b.control = .resume := by
      rcases m.resume_of hI hctl with hb | ⟨u, rfl⟩
      · exact hb
      · have hlog : [.dispatch u] ++ b.log = new' ++ b.log := hq.log
        have hidle := hq.idle
        rw [← List.append_cancel_right hlog] at hidle
        cases hidle
    have hres := h.awake ht hb
    rcases m.of_resume hI hres (by simp) (by simp) with ⟨e, _, rfl⟩ | hne
    · exact hres
    · exact absurd hctl hne

theorem Yielded.dispatch {ts us : List TaskPtr} {u : TaskPtr} {n : BitVec 32} {new : List Event}
    (h : Yielded t ts n new a b) (ht : t ∉ ts) (hq : b.links .taskrunqueue = u :: us) :
    Yielded t ts n (.dispatch u :: new) a (b.dispatch u) := by
  have hD : hist dispatched (.dispatch u :: new) = hist dispatched new ++ [u] := by
    rw [hist_cons]
    rfl
  constructor
  case scheduled => exact h.scheduled.dispatch hq
  case asleep =>
    intro hn
    rw [hD, List.mem_append, not_or, List.mem_singleton] at hn
    obtain ⟨hl, hc, _⟩ := h.asleep hn.1
    refine ⟨hl, ?_, fun hr => hn.2 (Option.some.inj hr).symm⟩
    simpa [Sys.dispatch, Sys.emit, Sys.setTask, Sys.deq, hn.2] using hc
  case awake =>
    intro hts _
    rw [hD] at hts
    obtain ⟨hold, hu⟩ := List.append_inj' hts rfl
    obtain rfl : u = t := List.head_eq_of_cons_eq hu
    obtain ⟨_, hc, _⟩ := h.asleep (by rwa [hold])
    refine ⟨rfl, rfl, ?_⟩
    simpa [Sys.dispatch, Sys.emit, Sys.setTask, Sys.deq] using hc

theorem Yielded.path {ok : Sys Queues → Call → Prop} {ts : List TaskPtr} {n : BitVec 32}
    (hI : Inv a pl) (h : Yielded t ts n [] a a) (ht : t ∉ ts)
    (hp : ReflTransGen (MoveBy ok) a b) : ∃ new pl', Yielded t ts n new a b ∧ Inv b pl' := by
  induction hp with
  | refl => exact ⟨[], pl, h, hI⟩
  | @tail b c _ hm ih =>
    obtain ⟨new, pl', hy, hI'⟩ := ih
    obtain ⟨_, m, _⟩ := hm
    obtain ⟨pl'', hI''⟩ := m.inv hI'
    rcases m.queued_or hI' with ⟨new', hq⟩ | ⟨u, us, _, hq, rfl⟩
    · exact ⟨_, pl'', hy.queued hI' m hq, hI''⟩
    · exact ⟨_, pl'', hy.dispatch ht hq, hI''⟩

end

/-- What ran ahead of `t` is what was queued ahead of it. -/
theorem fifo_comparable {τ : Type} {t : τ} {ts made run rest : List τ} (ht : t ∉ ts)
    (h : ts ++ t :: made = run ++ rest) :
    (t ∉ run → run <+: ts) ∧ (t ∈ run → ts ++ [t] <+: run) := by
  rcases List.append_eq_append_iff.mp h with ⟨us, rfl, hus⟩ | ⟨us, rfl, hus⟩
  · cases us with
    | nil => exact ⟨fun _ => by simp, fun hin => absurd (by simpa using hin) ht⟩
    | cons u us =>
      obtain ⟨rfl, rfl⟩ := List.cons.inj hus
      exact ⟨fun hn => absurd (by simp) hn, fun _ => ⟨us, by simp⟩⟩
  · exact ⟨fun _ => List.prefix_append run us,
      fun hin => absurd (List.mem_append_left us hin) ht⟩

/-- There are fewer tasks besides one than the counter of switches has values. -/
theorem length_lt_of_nodup {t : TaskPtr} {ts : List TaskPtr} (h : (t :: ts).Nodup) :
    ts.length < 2 ^ 32 := by
  have hinj : ((t :: ts).map UInt32.toFin).Nodup :=
    h.map fun x y hxy => UInt32.toFin_inj.mp hxy
  have hcard := hinj.length_le_card
  simp only [List.length_map, List.length_cons, Fintype.card_fin] at hcard
  exact hcard

theorem ofNat_toInt_eq_zero {k : ℕ} (hk : k < 2 ^ 32) : (BitVec.ofNat 32 k).toInt = 0 ↔ k = 0 := by
  rw [BitVec.toInt_eq_toNat_cond]
  simp only [BitVec.toNat_ofNat, Nat.mod_eq_of_lt hk]
  split <;> omega

/-- After `t` has yielded at `s` with `ts` ready: until it runs again the tasks that run are
those, each once and in that order, and then its call returns their number. -/
structure YieldsInTurn (t : TaskPtr) (ts : List TaskPtr) (s s' : Sys Links) (new : List Event)
    (q : List TaskPtr) : Prop where
  log : s'.log = new ++ s.log
  runqueue : WellLinked s'.links .taskrunqueue q
  fifo : ts ++ t :: hist madeReady new = hist dispatched new ++ q
  before : t ∉ hist dispatched new → hist dispatched new <+: ts
  after : t ∈ hist dispatched new → ts ++ [t] <+: hist dispatched new
  returns : hist dispatched new = ts ++ [t] → s'.control = .resume → s'.taskrunning = some t ∧
    ∀ e s'', step (e, .resume) s' = some s'' → s''.control = .user ∧
      s''.log = .ret t (BitVec.ofNat 32 ts.length).toInt :: s'.log
  zero : (BitVec.ofNat 32 ts.length).toInt = 0 ↔ ts = []

section
variable {s : Sys Links} {a : Sys Queues} {pl : Placement} {t : TaskPtr}

theorem sim_taskyield (h : Sim s a) (hI : Inv a pl) (ht : a.User t) :
    Sim (taskyield t s) ((a.ready t).switch (.taskyield s.tasknswitch) t) := by
  unfold taskyield
  refine (h.taskready (hI.off_lists (hI.user ht) (.inl rfl))).taskswitch _ ?_
  rw [Inv.ready_exiting]
  exact hI.not_exiting (hI.user ht)

/-- A yield puts the task behind all that are ready. -/
theorem yielded_taskyield {n : BitVec 32} (hI : Inv a pl) (ht : a.User t) :
    Yielded t (a.links .taskrunqueue) n [] ((a.ready t).switch (.taskyield n) t)
      ((a.ready t).switch (.taskyield n) t) := by
  constructor
  case scheduled => exact .refl _
  case asleep =>
    intro _
    refine ⟨hI.mem_live (hI.user ht), ?_, by simp [Sys.switch]⟩
    rw [Sys.switch_self]
  case awake =>
    intro h
    simp at h

end

/-- Yielding is round-robin, and returns how many tasks ran. -/
theorem taskyield_round_robin {s s₁ s₂ : Sys Links} {t : TaskPtr} {ts : List TaskPtr} {e : Env}
    (h : Reachable s) (ht : s.taskrunning = some t) (hc : s.control = .user)
    (hq : WellLinked s.links .taskrunqueue ts) (hs : step (e, .call .taskyield) s = some s₁)
    (hp : ReflTransGen (Step step (Keeps fun _ _ => True)) s₁ s₂) :
    ∃ new q, YieldsInTurn t ts s₁ s₂ new q := by
  obtain ⟨a, pl, ha, hI, hsim⟩ := h.sim
  have hu : a.User t := by
    obtain ⟨q, hq, rfl⟩ := hsim
    exact ⟨ht, hc⟩
  have hts : a.links .taskrunqueue = ts := by
    obtain ⟨q, hrep, rfl⟩ := hsim
    exact (hrep.isList _).unique hq.isList
  have hts' : t ∉ ts := hts ▸ hI.off_lists (hI.user hu) (.inl rfl) _
  have hnodup : (t :: ts).Nodup := List.nodup_cons.mpr ⟨hts', hts ▸ hI.placed.nodup_list _⟩
  have hs₁ : s₁ = taskyield t s := step_call ht hs
  have hm : Move none a ((a.ready t).switch (.taskyield s.tasknswitch) t) := by
    have hn : s.tasknswitch = a.tasknswitch := by
      obtain ⟨q, hq, rfl⟩ := hsim
      rfl
    rw [hn]
    exact .taskyield hu
  obtain ⟨_, hI₁⟩ := hm.inv hI
  have ha₁ := Reach.snoc ha ⟨none, hm, nofun⟩
  have hsim₁ : Sim s₁ _ := hs₁ ▸ sim_taskyield hsim hI hu
  obtain ⟨b, hpb, hb⟩ := path_simulated (fun _ _ _ _ _ => trivial) (h.snoc hs) hsim₁ ha₁ hp
  obtain ⟨new, _, hy, _⟩ := (yielded_taskyield hI hu).path hI₁ (hts.symm ▸ hts') hpb
  rw [hts] at hy
  have hrun : ((a.ready t).switch (.taskyield s.tasknswitch) t).links .taskrunqueue =
      ts ++ [t] := by
    simp [Sys.switch, Sys.ready, Sys.enq, Sys.emit, Sys.setTask, hts]
  have hfifo := hy.scheduled.fifo
  rw [hrun, List.append_assoc, List.singleton_append] at hfifo
  obtain ⟨hbefore, hafter⟩ := fifo_comparable hts' hfifo
  obtain ⟨q, hrep, rfl⟩ := hb
  refine ⟨new, q .taskrunqueue, ?_⟩
  constructor
  case log =>
    have hlog₁ : _ = s₁.log := hsim₁.log
    rw [← hlog₁]
    exact hy.scheduled.log
  case runqueue => exact wellLinked_of_isList (hrep.isList _)
  case fifo => exact hfifo
  case before => exact hbefore
  case after => exact hafter
  case returns =>
    intro hD hctl
    obtain ⟨hr, _, hx⟩ := hy.awake hD hctl
    refine ⟨hr, fun e' s'' hst => ?_⟩
    have hn : s₂.tasknswitch = s.tasknswitch + BitVec.ofNat 32 (ts.length + 1) := by
      have hsw := hy.scheduled.nswitch
      rw [hD, List.length_append] at hsw
      have hsame : a.tasknswitch = s.tasknswitch := by
        obtain ⟨q', _, rfl⟩ := hsim
        rfl
      exact hsame ▸ hsw
    have hres : taskyieldResult s.tasknswitch s₂ = BitVec.ofNat 32 ts.length := by
      rw [taskyieldResult, hn, BitVec.ofNat_add, BitVec.add_comm, BitVec.add_sub_cancel]
      exact BitVec.add_sub_cancel _ 1#32
    have hx' : (s₂.task t).context = .taskyield s.tasknswitch := hx
    have hback : resume e' t s₂ = .ok (s₂, .value (BitVec.ofNat 32 ts.length).toInt) := by
      simp only [resume, hx', hres]
    rw [step_resume hr hst, hback]
    exact ⟨rfl, rfl⟩
  case zero => rw [ofNat_toInt_eq_zero (length_lt_of_nodup hnodup), List.length_eq_zero_iff]

/-- The first task yields with the one it created ready. -/
def yieldRun : List (Env × Action) :=
  [(.still 0, .schedule), (.still 0, .resume), (.still 8192, .call (.taskcreate .user))]

/-- The other one runs, yields, and the first one is dispatched again. -/
def yieldedRun : List (Env × Action) :=
  [(.still 0, .schedule), (.still 0, .resume), (.still 0, .call .taskyield), (.still 0, .schedule)]

theorem taskyield_round_robin_small :
    ∃ s s₁ s₂, Program.small.after (fun _ _ => True) yieldRun = some s ∧
      step (.still 0, .call .taskyield) s = some s₁ ∧
      execBy step (Keeps fun _ _ => True) yieldedRun s₁ = some s₂ ∧
      s₂.taskrunning = some 4096 ∧ ∃ new q, YieldsInTurn 4096 [8192] s₁ s₂ new q := by
  have hrun : (Program.small.after (fun _ _ => True) yieldRun).map (fun s =>
      ((s.taskrunning, s.control), s.links.list .taskrunqueue, s.links.next 8192,
        s.links.prev 8192)) =
      some ((some 4096, .user), ⟨some 8192, some 8192⟩, none, none) := by decide
  have hyield : ((Program.small.after (fun _ _ => True) yieldRun).bind
      (step (.still 0, .call .taskyield))).isSome := by decide
  have hafter : (((Program.small.after (fun _ _ => True) yieldRun).bind
      (step (.still 0, .call .taskyield))).bind
        (execBy step (Keeps fun _ _ => True) yieldedRun)).map Sys.taskrunning =
      some (some 4096) := by decide
  obtain ⟨s, hs, hstate⟩ := Option.map_eq_some_iff.mp hrun
  rw [hs, Option.bind_some] at hyield hafter
  obtain ⟨s₁, hs₁⟩ := Option.isSome_iff_exists.mp hyield
  rw [hs₁, Option.bind_some] at hafter
  obtain ⟨s₂, hs₂, hrun₂⟩ := Option.map_eq_some_iff.mp hafter
  simp only [Prod.mk.injEq] at hstate
  obtain ⟨⟨ht, hc⟩, hlist, hnext, hprev⟩ := hstate
  have hq : WellLinked s.links .taskrunqueue [8192] := by
    apply wellLinked_of_isList
    rw [hlist]
    simp [DList.IsList, DList.Seg, hnext, hprev]
  exact ⟨s, s₁, s₂, hs, hs₁, hs₂, hrun₂, taskyield_round_robin (Program.reachableBy_after hs) ht hc
    hq hs₁ (path_of_execBy hs₂)⟩

end Libtask
