import Libtask.Abstract.Invariant

/-! The operations of the abstract machine, other than those of alts, keep the invariant. -/
namespace Libtask
open Function Runs

namespace OnCpu
variable {σ : Type} {a : Sys σ} {pl : Placement}

theorem halt (h : OnCpu a pl) (v : Halt) : OnCpu (a.halt v) pl where
  running := h.running
  scheduler := nofun
  user := nofun
  resume := nofun

end OnCpu

namespace Inv
variable {a a' b : Sys Queues} {pl : Placement} {t u : TaskPtr} {k : TasklistRef} {l r : ℕ}
  {us : List TaskPtr} {loc : Loc} {c : Context}

theorem halt (h : Inv a pl) (v : Halt) : Inv (a.halt v) pl :=
  h.quiet (.same rfl rfl rfl rfl) rfl rfl rfl rfl (fun _ => rfl) (h.onCpu.halt v)

section Granted

theorem granted_woken (h : Inv a pl) (hu : pl u = some (.list (.rendez r)))
    (hlog : b.log = .ready u :: .rendez r (.woken u) :: a.log) :
    (a.task u).context.granted b u := by
  obtain ⟨hhome, hw⟩ := h.fits u _ hu
  cases hc : (a.task u).context <;> rw [hc] at hhome hw <;> cases hhome
  simp only [Context.waiting, CondVar.wakeups] at hw
  simp [Context.granted, hlog, rendezEvent, CondVar.wakeups, List.filterMap_cons, since_cons_ne, hw]

theorem granted_handoff (h : Inv a pl) (hu : pl u = some (.list (.qwaiting l)))
    (hr : b.rendez = a.rendez) (hlog : b.log = .ready u :: .q l (.handoff u) :: a.log) :
    (a.task u).context.granted b u := by
  obtain ⟨hhome, hw⟩ := h.fits u _ hu
  cases hc : (a.task u).context <;> rw [hc] at hhome hw <;> cases hhome
  · simp only [Context.waiting, HandoffLock.Blocked] at hw
    simp [Context.granted, hlog, qEvent, HandoffLock.Handed, List.filterMap_cons,
      since_cons_ne, hw.2]
  · simp only [Context.waiting, HandoffLock.Blocked] at hw
    simp [Context.granted, hlog, qEvent, rendezEvent, HandoffLock.Handed, List.filterMap_cons,
      since_cons_ne, hr, hw.1.2, hw.2]

theorem granted_rhandoff (h : Inv a pl) (hu : pl u = some (.list (.rwaiting l)))
    (hlog : b.log = .ready u :: .rw l (.rhandoff u) :: a.log) :
    (a.task u).context.granted b u := by
  obtain ⟨hhome, _⟩ := h.fits u _ hu
  cases hc : (a.task u).context <;> rw [hc] at hhome <;> cases hhome
  simp [Context.granted, hlog, rwEvent, List.filterMap_cons, since_cons_ne]

theorem granted_whandoff (h : Inv a pl) (hu : pl u = some (.list (.wwaiting l)))
    (hlog : b.log = .ready u :: .rw l (.whandoff u) :: a.log) :
    (a.task u).context.granted b u := by
  obtain ⟨hhome, _⟩ := h.fits u _ hu
  cases hc : (a.task u).context <;> rw [hc] at hhome <;> cases hhome
  simp [Context.granted, hlog, rwEvent, List.filterMap_cons, since_cons_ne]

theorem granted_sleeping (h : Inv a pl) (hu : pl u = some (.list .sleeping)) (b : Sys Queues) :
    (a.task u).context.granted b u := by
  obtain ⟨hhome, _⟩ := h.fits u _ hu
  cases hc : (a.task u).context <;> rw [hc] at hhome <;> cases hhome
  trivial

theorem granted_poll (h : Inv a pl) (hu : pl u = some .poll) (b : Sys Queues) :
    (a.task u).context.granted b u := by
  obtain ⟨hhome, _⟩ := h.fits u _ hu
  cases hc : (a.task u).context <;> rw [hc] at hhome <;> cases hhome
  trivial

end Granted

@[simp] theorem ready_context (a : Sys Queues) (t u : TaskPtr) :
    ((a.ready t).task u).context = (a.task u).context := by
  by_cases hu : u = t
  · subst hu
    simp [Sys.ready, Sys.enq, Sys.emit, Sys.setTask]
  · simp [Sys.ready, Sys.enq, Sys.emit, Sys.setTask, hu]

@[simp] theorem ready_exiting (a : Sys Queues) (t u : TaskPtr) :
    ((a.ready t).task u).exiting = (a.task u).exiting := by
  by_cases hu : u = t
  · subst hu
    simp [Sys.ready, Sys.enq, Sys.emit, Sys.setTask]
  · simp [Sys.ready, Sys.enq, Sys.emit, Sys.setTask, hu]

theorem wake (h : Inv a pl) (hk : k ≠ .taskrunqueue) (hq : a.links k = u :: us)
    (hF : Frame (some u) ∅ a a') (hchan : a'.chan = a.chan) (hlive : a'.live = a.live)
    (hl : a'.links = a.links) (hp : a'.polls = a.polls) (htask : a'.task = a.task)
    (hrun : a'.taskrunning = a.taskrunning) (hc : a'.control = a.control)
    (hg : (a.task u).context.granted (a'.wake k u) u) :
    Inv (a'.wake k u) (update pl u (some .runqueue)) := by
  have hpl : Placed a' pl := h.placed.congr hl hp fun t => by rw [htask]
  refine h.makeReady (h.placed.mem_list.mp (by simp [hq]) :
    pl u = some (.list k)) (by simp [Loc.cpu])
    (by simp) hF.wake hchan hlive (hpl.wake hk (by rw [hl, hq])) hrun hc ?_ ?_ hg
  · rw [Sys.wake, ready_context]
    simp [Sys.deq, htask]
  · rw [Sys.wake, ready_exiting]
    simp [Sys.deq, htask]

theorem block (h : Inv a pl) (ht : pl t = some loc) (hcpu : loc.cpu) (hk : k ≠ .taskrunqueue)
    (hF : Frame (some t) ∅ a a') (hchan : a'.chan = a.chan) (hlive : a'.live = a.live)
    (hl : a'.links = a.links) (hp : a'.polls = a.polls) (htask : a'.task = a.task)
    (hhome : c.home = some (.list k)) (hw : c.waiting ((a'.enq k t).switch c t) t) :
    Inv ((a'.enq k t).switch c t) (update pl t (some (.list k))) := by
  have hpl : Placed a' pl := h.placed.congr hl hp fun t => by rw [htask]
  have hoff : pl.Off t := by
    rcases hcpu with rfl | rfl <;> simp [Placement.Off, ht]
  have hb : ((a'.enq k t).switch c t).task t = { a.task t with context := c } := by
    rw [Sys.switch_self, Sys.enq, htask]
  have henq : Frame (some t) ∅ a' (a'.enq k t) := .same rfl rfl rfl rfl
  refine h.leave ht hcpu (hF.trans henq).switch hchan hlive
    ((hpl.enq hoff hk).congr rfl rfl fun u => ?_) (by simp [Loc.cpu]) (by simp) rfl rfl
    (by rw [hb]) ?_ fun base => ?_
  · exact Sys.switch_ready
  · unfold Loc.fits
    split
    · trivial
    · rename_i he
      cases he
    · rename_i he
      cases he
      exact absurd rfl hk
    · rw [hb]
      exact ⟨hhome, hw⟩
  · rw [hb]
    rintro rfl
    cases hhome

theorem yield (h : Inv a pl) (ht : pl t = some loc) (hcpu : loc.cpu)
    (hg : c.granted ((a.ready t).switch c t) t) (hctx : ∀ base, c ≠ .chanalt base) :
    Inv ((a.ready t).switch c t) (update pl t (some .runqueue)) := by
  have hoff : pl.Off t := by
    rcases hcpu with rfl | rfl <;> simp [Placement.Off, ht]
  have hb : (((a.ready t).switch c t).task t).context = c := by
    rw [Sys.switch_self]
  refine h.leave ht hcpu (.switch (.ready (.refl _ _ _))) rfl rfl
    ((h.placed.makeReady hoff).congr rfl rfl fun u => ?_) (by simp [Loc.cpu]) (by simp) rfl rfl
    ?_ ?_ fun base => ?_
  · exact Sys.switch_ready
  · simp
  · simpa only [Loc.fits, hb] using hg
  · rw [hb]
    exact hctx base

theorem dispatch {ts : List TaskPtr} (h : Inv a pl) (hc : a.control = .scheduler)
    (hq : a.links .taskrunqueue = t :: ts) :
    Inv (a.dispatch t) (update pl t (some .resuming)) := by
  have ht : pl t = some .runqueue := h.placed.mem_list.mp (by simp [hq])
  have hset : Frame none ∅ a (a.setTask t fun x => { x with ready := false }) :=
    .tweak (fun _ => rfl) fun _ => rfl
  have hF : Frame none ∅ a (a.dispatch t) :=
    ⟨hset.context, hset.exiting, rfl, fun _ _ => rfl, [.dispatch t], rfl,
      by simp [Event.subject, transferOf]⟩
  have hpop : Placed (a.dispatch t) (update pl t none) := by
    refine h.placed.pop hq (by simp [Sys.dispatch, Sys.emit, Sys.deq, Sys.setTask, hq]) rfl
      fun u => ?_
    by_cases hu : u = t
    · subst hu
      simp [Sys.dispatch, Sys.emit, Sys.deq, Sys.setTask]
    · simp [Sys.dispatch, Sys.emit, Sys.deq, Sys.setTask, hu]
  have hp := hpop.off (o := some .resuming) (Placement.off_update (by simp) (by simp)) (by simp)
    (by simp)
  rw [update_idem] at hp
  have hg : (a.task t).context.granted a t := h.fits t _ ht
  refine h.move hF.weaken rfl (h.mem_live_iff rfl ht) (by simp [ht]) (by simp) hp
    (h.onCpu.dispatch (h.onCpu.scheduler hc) rfl rfl) ?_ (fun _ => ?_) fun base hi => ?_
  · rintro _ ⟨⟩
    rw [Loc.fits, hF.context t (by simp)]
    exact (hF.granted (by simp) _ (by simp)).mpr hg
  · rw [hF.exiting t (by simp)]
    exact h.not_exiting ht
  · exact ⟨hF.context t (by simp) ▸ hi.1, by simp [ht], by simp [ht]⟩

theorem create {p : TaskPtr} (h : Inv a pl) (fn : Startfn) (hp : p ∉ a.live) :
    Inv (a.create fn p) (update pl p (some .runqueue)) := by
  have hpl : pl p = none := (h.live p).mpr hp
  let a' : Sys Queues := { a with
    task := update a.task p
      { context := .taskstart, alarmtime := 0, id := a.taskidgen + 1, exiting := false,
        alltaskslot := a.nalltask, system := false, ready := false, startfn := fn }
    live := insert p a.live
    taskidgen := a.taskidgen + 1
    taskcount := a.taskcount + 1
    alltaskcap := if a.nalltask % 64 = 0 then a.nalltask + 64 else a.alltaskcap
    alltask := update a.alltask a.nalltask p
    nalltask := a.nalltask + 1 }
  have hF : Frame (some p) ∅ a a' :=
    ⟨fun u hu => by simp [a', show u ≠ p by simpa using hu],
      fun u hu => by simp [a', show u ≠ p by simpa using hu], rfl, fun _ _ => rfl, [], rfl, by simp⟩
  have hplaced : Placed a' pl := by
    refine h.placed.congr rfl rfl fun u => ?_
    by_cases hu : u = p
    · subst hu
      simp [a', h.placed.ready, hpl]
    · simp [a', hu]
  have hctx : ((a'.ready p).task p).context = .taskstart := by simp [a']
  refine h.move (b := a'.ready p) hF.ready rfl (fun u => ?_) (by simp [hpl]) (by simp)
    (hplaced.makeReady (by simp [Placement.Off, hpl]))
    (h.onCpu.off_cpu rfl rfl (by simp [hpl]) (by simp [Loc.cpu])) ?_ (fun _ => by simp [a']) ?_
  · by_cases hu : u = p
    · subst hu
      simp [a', Sys.ready, Sys.enq, Sys.emit, Sys.setTask]
    · simp [a', Sys.ready, Sys.enq, Sys.emit, Sys.setTask, hu]
  · rintro _ ⟨⟩
    rw [Loc.fits, hctx]
    trivial
  · rintro base ⟨hi, _⟩
    rw [hctx] at hi
    cases hi

end Inv

/-- What `taskexit` and the scheduler after it do to the state. -/
theorem taskexit_eq {σ : Type} (v : ℤ) (t : TaskPtr) (a : Sys σ) : taskexit v t a =
    ({ a with
      task :=
        let task := update a.task t { a.task t with exiting := true, context := .taskexit }
        update task (a.alltask (a.nalltask - 1))
          { task (a.alltask (a.nalltask - 1)) with alltaskslot := (a.task t).alltaskslot }
      live := a.live.erase t
      alltask := update a.alltask (a.task t).alltaskslot (a.alltask (a.nalltask - 1))
      nalltask := a.nalltask - 1
      taskcount := if (a.task t).system then a.taskcount else a.taskcount - 1
      taskexitval := v
      taskrunning := none
      control := .scheduler } : Sys σ).emit (.free t) := by
  by_cases hs : (a.task t).system <;>
    simp [taskexit, taskswitch, taskfree, Sys.setTask, Sys.emit, hs]

/-- An update that keeps a field of one task keeps that field of all tasks. -/
theorem update_proj {α : Type} {g : TaskPtr → Task} {x : Task} (f : Task → α) (hx : f x = f (g t))
    (u : TaskPtr) : f (update g t x u) = f (g u) := by
  by_cases hu : u = t
  · rw [hu, update_self, hx]
  · rw [update_of_ne hu]

namespace Inv
variable {a a' b : Sys Queues} {pl : Placement} {t u : TaskPtr} {k : TasklistRef} {l r : ℕ}
  {us : List TaskPtr} {loc : Loc} {c : Context}

theorem exit (h : Inv a pl) (ht : pl t = some loc) (hcpu : loc.cpu) (v : ℤ) :
    Inv (taskexit v t a) (update pl t none) := by
  have hoff : pl.Off t := by
    rcases hcpu with rfl | rfl <;> simp [Placement.Off, ht]
  have hsame : ∀ u, ((taskexit v t a).task u).ready = (a.task u).ready ∧
      (u ≠ t → ((taskexit v t a).task u).context = (a.task u).context ∧
        ((taskexit v t a).task u).exiting = (a.task u).exiting) := by
    intro u
    by_cases hu : u = t <;> by_cases hl : u = a.alltask (a.nalltask - 1) <;>
      simp [taskexit_eq, Sys.emit, update_apply, hu, hl] <;> simp_all
  have hF : Frame (some t) ∅ a (taskexit v t a) := by
    refine ⟨fun u hu => ((hsame u).2 (by simpa using hu)).1,
      fun u hu => ((hsame u).2 (by simpa using hu)).2, ?_, fun _ _ => ?_, [.free t], ?_, ?_⟩
    · rw [taskexit_eq]
      rfl
    · rw [taskexit_eq]
      rfl
    · rw [taskexit_eq]
      rfl
    · simp [Event.subject, transferOf]
  have hpl : Placed (taskexit v t a) pl :=
    h.placed.congr (by rw [taskexit_eq]; rfl) (by rw [taskexit_eq]; rfl) fun u => (hsame u).1
  refine h.move hF (by rw [taskexit_eq]; rfl) (fun u => ?_) (fun base hb => ?_) (by simp)
    (hpl.off hoff (by simp) (by simp))
    (h.onCpu.leave (by rw [taskexit_eq]; rfl) (by rw [taskexit_eq]; rfl) ht hcpu (by simp))
    (by simp) (by simp) fun base hi => absurd hi.2.1 (by simp)
  · rw [taskexit_eq]
    by_cases hu : u = t
    · simp [Sys.emit, hu]
    · simp [Sys.emit, hu]
  · rw [ht] at hb
    cases hb
    rcases hcpu with h | h <;> cases h

theorem unlock (h : Inv a pl) (ht : pl t = some .user) (l : ℕ) :
    ∃ pl', Inv (a.unlock l t) pl' ∧ pl' t = some .user := by
  have hF : ∀ o, Frame (some t) ∅ a ((a.emit (.q l (.release t))).setOwner l o) := fun o =>
    (Frame.emit (.refl _ _ a) (e := .q l (.release t)) (.inr rfl) fun _ _ => rfl).trans
      (.same rfl rfl rfl rfl)
  have ha' : ∀ o, Inv ((a.emit (.q l (.release t))).setOwner l o) pl := fun o =>
    h.stay ht (hF o) rfl rfl rfl rfl (fun _ => rfl) rfl rfl rfl
  cases hq : a.links (.qwaiting l) with
  | nil =>
    rw [Sys.unlock_nil hq]
    exact ⟨pl, ha' none, ht⟩
  | cons u us =>
    have hu : pl u = some (.list (.qwaiting l)) := h.placed.mem_list.mp (by simp [hq])
    have hut : t ≠ u := by
      rintro rfl
      rw [ht] at hu
      cases hu
    rw [Sys.unlock_cons hq]
    refine ⟨_, (ha' (some u)).wake (by simp) hq
      (.emit (.refl _ _ _) (.inr rfl) fun _ _ => rfl) rfl rfl
      rfl rfl rfl rfl rfl ((ha' (some u)).granted_handoff hu rfl rfl), ?_⟩
    rwa [update_of_ne hut]

theorem grantWriter (h : Inv a pl) (l : ℕ) : ∃ pl', Inv (a.grantWriter l) pl' := by
  unfold Sys.grantWriter
  split
  · exact ⟨pl, h⟩
  · rename_i u us hq
    split
    · refine ⟨_, h.wake (by simp) hq ?_ rfl rfl rfl rfl rfl rfl rfl
        (h.granted_whandoff (h.placed.mem_list.mp (by simp [hq])) rfl)⟩
      exact (Frame.emit (.refl _ _ a) (e := .rw l (.whandoff u)) (.inr rfl) fun _ _ => rfl).trans
        (.same rfl rfl rfl rfl)
    · exact ⟨pl, h⟩

theorem letIn (h : Inv a pl) (l : ℕ) {ys : List TaskPtr} (hq : a.links (.rwaiting l) = us ++ ys) :
    ∃ pl', Inv (a.letIn l us) pl' := by
  induction us generalizing a pl with
  | nil => exact ⟨pl, h⟩
  | cons u us ih =>
    have hF : Frame (some u) ∅ a ((a.emit (.rw l (.rhandoff u))).setReaders l
        ((a.rwlock l).readers + 1)) :=
      (Frame.emit (.refl _ _ a) (e := .rw l (.rhandoff u)) (.inr rfl) fun _ _ => rfl).trans
        (.same rfl rfl rfl rfl)
    refine ih (h.wake (by simp) hq hF rfl rfl rfl rfl rfl rfl rfl
      (h.granted_rhandoff (h.placed.mem_list.mp (by simp [hq])) rfl)) ?_
    simp [Sys.wake, Sys.ready, Sys.enq, Sys.emit, Sys.setTask, Sys.deq, Sys.setReaders, hq]

theorem readUnlock (h : Inv a pl) (ht : pl t = some .user) (l : ℕ) :
    ∃ pl', Inv (a.readUnlock l t) pl' := by
  refine (h.stay ht ?_ rfl rfl rfl rfl (fun _ => rfl) rfl rfl rfl :
    Inv ((a.setReaders l ((a.rwlock l).readers - 1)).emit (.rw l (.rrelease t))) pl).grantWriter l
  exact .emit (.same rfl rfl rfl rfl) (.inr rfl) fun _ _ => rfl

theorem writeUnlock (h : Inv a pl) (ht : pl t = some .user) (l : ℕ) :
    ∃ pl', Inv (a.writeUnlock l t) pl' := by
  have hF : Frame (some t) ∅ a ((a.setWriter l none).emit (.rw l (.wrelease t))) :=
    .emit (.same rfl rfl rfl rfl) (.inr rfl) fun _ _ => rfl
  have ha' := h.stay ht hF rfl rfl rfl rfl (fun _ => rfl) rfl rfl rfl
  cases hq : a.links (.rwaiting l) with
  | nil =>
    rw [Sys.writeUnlock_nil hq]
    exact ha'.grantWriter l
  | cons u us =>
    rw [Sys.writeUnlock_cons hq]
    refine (ha'.quiet (.emit (.refl _ _ _) (.inl rfl) fun _ _ => rfl) rfl rfl rfl rfl
      (fun _ => rfl) (ha'.onCpu.congr rfl rfl)).letIn l (show _ = (u :: us) ++ [] from ?_)
    rw [List.append_nil]
    exact hq

theorem sleep (h : Inv a pl) (ht : pl t = some .user) (r : ℕ) :
    ∃ pl', Inv ((a.sleep r t).switch (.tasksleep r) t) pl' := by
  have ha' : Inv (a.emit (.rendez r (.sleep t))) pl :=
    h.stay ht (.emit (.refl _ _ _) (.inr rfl) fun _ _ => rfl) rfl rfl rfl rfl
      (fun _ => rfl) rfl rfl rfl
  cases hl : (a.rendez r).l with
  | none =>
    rw [Sys.sleep_none hl]
    refine ⟨_, ha'.block ht (.inl rfl) (by simp) (.same rfl rfl rfl rfl) rfl rfl rfl rfl rfl rfl ?_⟩
    simp [Context.waiting, Sys.switch, Sys.setTask, Sys.enq, Sys.emit, CondVar.wakeups, rendezEvent]
  | some l =>
    obtain ⟨pl', hu, ht'⟩ := ha'.unlock ht l
    rw [Sys.sleep_some hl]
    refine ⟨_, hu.block ht' (.inl rfl) (by simp) (.same rfl rfl rfl rfl) rfl rfl rfl rfl rfl rfl ?_⟩
    have hlog : (((a.emit (.rendez r (.sleep t))).unlock l t).log.filterMap (rendezEvent r)) =
        .sleep t :: a.log.filterMap (rendezEvent r) := by
      cases hq : (a.emit (.rendez r (.sleep t))).links (.qwaiting l) with
      | nil =>
        rw [Sys.unlock_nil hq]
        simp [Sys.emit, Sys.setOwner, rendezEvent, List.filterMap_cons]
      | cons u us =>
        rw [Sys.unlock_cons hq]
        simp [Sys.wake, Sys.ready, Sys.enq, Sys.deq, Sys.setTask, Sys.emit, Sys.setOwner,
          rendezEvent, List.filterMap_cons]
    simp only [Context.waiting, Sys.switch, Sys.setTask, Sys.enq, hlog,
      CondVar.wakeups, since_cons_self,
      List.count_nil]

theorem taskdelay (h : Inv a pl) (ht : pl t = some .user) (deadline now : UInt64) (ms : UInt32) :
    Inv (((a.delay deadline t).emit (.delay t now ms)).switch (.taskdelay now) t)
      (update pl t (some (.list .sleeping))) := by
  have hF : Frame (some t) ∅ a (a.delay deadline t) :=
    ((Frame.refl _ _ a).setTask (f := fun x => { x with alarmtime := deadline })).trans
      (.same rfl rfl rfl rfl)
  refine h.leave ht (.inl rfl) (.switch (hF.emit (.inl rfl) fun _ _ => rfl)) rfl rfl ?_
    (by simp [Loc.cpu]) (by simp) rfl rfl ?_ ?_ ?_
  · refine h.placed.insert (by simp [Placement.Off, ht])
      (List.takeWhile_append_dropWhile (p := fun u => (a.task u).alarmtime < deadline)).symm rfl rfl
      fun u => ?_
    by_cases hu : u = t
    · subst hu
      simp [Sys.setTask, Sys.emit, Sys.delay, Sys.countSleeper, h.placed.ready, ht]
    · simp [Sys.setTask, Sys.emit, Sys.delay, Sys.countSleeper, hu]
  · simp [Sys.setTask, Sys.emit, Sys.delay, Sys.countSleeper]
  · simp [Loc.fits, Context.home, Context.waiting]
  · simp

theorem fdwait (h : Inv a pl) (ht : pl t = some .user) (p : Pollfd) (fd : ℤ) (events : ℕ) :
    Inv (({ a with
      polltask := update a.polltask a.npollfd t
      pollfd := update a.pollfd a.npollfd p
      npollfd := a.npollfd + 1 } : Sys Queues).emit (.fdwait t fd events) |>.switch .fdwait t)
      (update pl t (some .poll)) := by
  refine h.leave ht (.inl rfl) (.switch (.emit (.same rfl rfl rfl rfl) (.inl rfl) fun _ _ => rfl))
    rfl rfl ?_
    (by simp [Loc.cpu]) (by simp) rfl rfl ?_ ?_ ?_
  · refine h.placed.pollAdd (by simp [Placement.Off, ht]) rfl ?_ fun u => ?_
    · simp only [Sys.polls, Sys.switch, Sys.setTask, Sys.emit, List.range_succ, List.map_append,
        List.map_singleton, update_self]
      congr 1
      exact List.map_congr_left fun i hi => update_of_ne (List.mem_range.mp hi).ne _ _
    · exact Sys.switch_ready
  · simp [Sys.emit]
  · simp [Loc.fits, Context.home, Context.waiting]
  · simp

theorem pollwake {i : ℕ} (h : Inv a pl) (hi : i < a.npollfd) :
    Inv ((a.ready (a.polltask i)).pollRemove i) (update pl (a.polltask i) (some .runqueue)) := by
  have hu : pl (a.polltask i) = some .poll := h.placed.mem_poll.mp
    (List.mem_map.mpr ⟨i, List.mem_range.mpr hi, rfl⟩)
  refine h.makeReady hu (by simp [Loc.cpu]) (by simp)
    ((Frame.refl _ _ a).ready.trans (.same rfl rfl rfl rfl)) rfl
    rfl (h.placed.pollWake hi) rfl rfl ?_ ?_ (h.granted_poll hu _)
  · exact ready_context _ _ _
  · exact ready_exiting _ _ _

end Inv
end Libtask
