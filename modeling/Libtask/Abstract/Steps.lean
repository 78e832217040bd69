import Libtask.Abstract.Alts

/-! Every move keeps the invariant, and a program starts in it. -/
namespace Libtask
open Function Runs

namespace Inv
variable {a b : Sys Queues} {pl : Placement} {t u : TaskPtr} {base i rand : ℕ} {as : List Alt}

theorem user (h : Inv a pl) (ht : a.User t) : pl t = some .user := h.onCpu.of_user ht

theorem resuming {c : Context} (h : Inv a pl) (ht : a.Resuming t c) : pl t = some .resuming :=
  h.onCpu.of_resuming ht

theorem emit {e : Event} (h : Inv a pl) (he : e.subject = none)
    (ht : ∀ base, transferOf base e = none) : Inv (a.emit e) pl :=
  h.quiet (.emit (.refl _ _ _) (.inl he) fun base _ => ht base) rfl rfl rfl rfl (fun _ => rfl)
    (h.onCpu.congr rfl rfl)

/-- The array `base` is not that of a call in progress. -/
def Unused (a : Sys Queues) (base : ℕ) : Prop :=
  ∀ v ∈ a.live, a.taskrunning ≠ some v → (a.task v).context ≠ .chanalt base

theorem altlen_altenter (a : Sys Queues) (base : ℕ) (as : List Alt) (t : TaskPtr) :
    altlen ((a.altenter base as t).alts base) = altlen as := by
  simp [altlen_stamped]

/-- A branch that `chanalt` picks is executed, for the caller and for a task it is matched
with. -/
theorem altrun (h : Inv a pl) (ht : a.User t) (hbase : Unused a base)
    (hi : altpick base (a.altenter base as t) (altlen as) rand = some i) (rand₂ : ℕ) :
    ∃ b u c evs pl', altexecMatch ⟨base, i⟩ rand₂ (a.altenter base as t) = .ok (b, u) ∧
      ChanOnly c evs (a.altenter base as t) b ∧ Inv (b.readyOpt u) pl' ∧ u ≠ some t ∧
      (evs.map (Event.chan c)).filterMap (transferOf base) = [i] := by
  have hu := h.user ht
  have hfresh := h.fresh ht hbase
  have hent := h.altenter as hu hfresh
  obtain ⟨hlt, hcan⟩ := altpick_some hi
  rw [← altlen_altenter a base as t] at hlt
  obtain ⟨x, hx, hop⟩ := branch_op hlt
  have hq : x.op.queued := by
    refine hop.resolve_left fun hn => ?_
    rw [altcanexec, hx] at hcan
    simp [hn] at hcan
  by_cases hne : ((a.altenter base as t).chan x.c).arr (otherop x.op) = []
  · obtain ⟨b, e, hok, hb, hbl, he⟩ := hent.altexec_alone hu hfresh hx hq hcan hne rand₂
    exact ⟨b, none, x.c, [e], pl, hok, hbl, hb, by simp, by simp [transferOf, he]⟩
  · obtain ⟨b, u, e, d, base', hok, hb, hpu, hbl, htr⟩ :=
      hent.altexec_matched hfresh hx hq hne rand₂
    refine ⟨b, some u, x.c, [e, d], _, hok, hbl, hb, ?_, htr⟩
    rintro ⟨⟩
    rw [hu] at hpu
    cases hpu

theorem altrun_of_ok {rand₂ : ℕ} {u : Option TaskPtr} (h : Inv a pl) (ht : a.User t)
    (hbase : Unused a base) (hi : altpick base (a.altenter base as t) (altlen as) rand = some i)
    (hx : altexecMatch ⟨base, i⟩ rand₂ (a.altenter base as t) = .ok (b, u)) :
    ∃ c evs pl', ChanOnly c evs (a.altenter base as t) b ∧ Inv (b.readyOpt u) pl' ∧ u ≠ some t ∧
      (evs.map (Event.chan c)).filterMap (transferOf base) = [i] := by
  obtain ⟨b', u', c, evs, pl', hok, h'⟩ := h.altrun ht hbase hi rand₂
  cases hok.symm.trans hx
  exact ⟨c, evs, pl', h'⟩

theorem altrun_log {c : ℕ} {evs : List ChanEvent} {u : Option TaskPtr}
    (hb : ChanOnly c evs (a.altenter base as t) b) (hu : u ≠ some t) :
    transfers t base (b.readyOpt u).log = (evs.map (Event.chan c)).filterMap (transferOf base) ∧
      readied t base (b.readyOpt u).log = 0 := by
  have hbl : b.log = evs.map (Event.chan c) ++ .altcall t base :: a.log := by rw [hb]; rfl
  have hs : since (.altcall t base) b.log = evs.map (Event.chan c) := by
    rw [hbl, since_append (by simp), since_cons_self, List.append_nil]
  cases u with
  | none => simp [transfers, readied, Sys.readyOpt, hs, List.count_eq_zero]
  | some v =>
    have hv : v ≠ t := by
      rintro rfl
      exact hu rfl
    have hl : since (.altcall t base) (b.readyOpt (some v)).log =
        .ready v :: evs.map (Event.chan c) := by
      show since (.altcall t base) (.ready v :: b.log) = _
      rw [since_cons_ne (by simp), hs]
    rw [transfers, readied, hl, List.filterMap_cons_none rfl]
    simp [hv, List.count_eq_zero]

/-- A call with no branch to execute queues all its branches. -/
theorem altwait (h : Inv a pl) (ht : a.User t) (has : ∃ x ∈ as, isAltend x.op)
    (hbase : Unused a base)
    (hi : altpick base (a.altenter base as t) (altlen as) rand = none) :
    ∃ b, altqueueAll base (List.range (altlen as)) (a.altenter base as t) = .ok b ∧
      Inv (b.switch (.chanalt base) t) (update pl t (some (.alt base))) := by
  have hu := h.user ht
  have hent := h.altenter as hu (h.fresh ht hbase)
  have hlen := altlen_altenter a base as t
  rw [← hlen]
  refine hent.altblock hu (h.fresh ht hbase) ?_ (fun i hi x hx => ?_) ?_ rfl
  · rw [altenter_alts, update_self]
    exact terminated_stamped has
  · rw [hlen] at hi
    rw [altenter_alts, update_self, getElem?_stamped, if_pos hi] at hx
    obtain ⟨y, _, rfl⟩ := Option.map_eq_some_iff.mp hx
    exact ⟨rfl, rfl⟩
  · rw [hlen]
    exact altpick_none hi

end Inv

namespace Inv
variable {a b : Sys Queues} {pl : Placement} {t : TaskPtr} {c : Context}

/-- A call comes back to user code, with some events about itself. -/
theorem comeBack (h : Inv a pl) (ht : a.Resuming t c) (new : List Event)
    (hF : b = { b with links := a.links, task := a.task, live := a.live })
    (hb : b.taskrunning = a.taskrunning ∧ b.control = .user)
    (hs : b.chan = a.chan ∧ b.alts = a.alts ∧ b.rendez = a.rendez ∧ b.polls = a.polls)
    (hlog : b.log = new ++ a.log)
    (hn : ∀ e ∈ new, e.subject = some t ∧ ∀ base, transferOf base e = none) :
    ∃ pl', Inv b pl' := by
  have htask : b.task = a.task := by rw [hF]
  have hf : Frame (some t) ∅ a b := .events new htask hs.2.1 hs.2.2.1 hlog fun e he =>
    ⟨.inr (hn e he).1, fun base _ => (hn e he).2 base⟩
  exact ⟨_, h.back (h.resuming ht) hf hs.1 (by rw [hF]) (by rw [hF]) hs.2.2.2
    (fun u => by rw [htask]) (by rw [htask]) hb.1 hb.2⟩

theorem setStarted (h : Inv a pl) : Inv { a with startedfdtask := true } pl :=
  h.quiet (.same rfl rfl rfl rfl) rfl rfl rfl rfl (fun _ => rfl) (h.onCpu.congr rfl rfl)

theorem tasksystem (h : Inv a pl) (t : TaskPtr) : Inv (tasksystem t a) pl := by
  unfold Libtask.tasksystem
  split
  · exact h
  · have hF : Frame none ∅ a (a.setTask t fun x => { x with system := true }) :=
      .tweak (fun _ => rfl) fun _ => rfl
    refine h.quiet (hF.trans (.same rfl rfl rfl rfl)) rfl rfl rfl rfl (fun u => ?_)
      (h.onCpu.congr rfl rfl)
    by_cases hu : u = t
    · subst hu
      simp [Sys.setTask]
    · simp [Sys.setTask, hu]

/-- A task blocks on a lock, as a caller or at the end of `tasksleep`. -/
theorem qblock {l : ℕ} (h : Inv a pl) (ht : a.User t ∧ c = .qlock l ∨
      ∃ r, a.Resuming t (.tasksleep r) ∧ c = .sleepqlock r l ∧ (a.rendez r).l = some l) :
    ∃ pl', Inv (((a.emit (.q l (.block t))).enq (.qwaiting l) t).switch c t) pl' := by
  have hF : Frame (some t) ∅ a (a.emit (.q l (.block t))) :=
    .emit (.refl _ _ _) (.inr rfl) fun _ _ => rfl
  rcases ht with ⟨ht, rfl⟩ | ⟨r, ht, rfl, hl⟩
  · refine ⟨_, h.block (h.user ht) (.inl rfl) (by simp) hF rfl rfl rfl rfl rfl rfl ?_⟩
    simp [Context.waiting, HandoffLock.Blocked, Sys.switch, Sys.setTask, Sys.enq, Sys.emit, qEvent]
  · have hg : (a.task t).context.granted a t := h.fits t _ (h.resuming ht)
    rw [ht.2.2, Context.granted] at hg
    refine ⟨_, h.block (h.resuming ht) (.inr rfl) (by simp) hF rfl rfl rfl rfl rfl rfl ?_⟩
    simpa [Context.waiting, HandoffLock.Blocked, Sys.switch, Sys.setTask, Sys.enq, Sys.emit, qEvent,
      rendezEvent, List.filterMap_cons, hl] using hg

end Inv

theorem QMove.inv {l : Option Call} {a b : Sys Queues} {pl : Placement} (h : Inv a pl)
    (m : QMove l a b) : ∃ pl', Inv b pl' := by
  cases m with
  | qback ht _ | awake ht _ =>
    exact h.comeBack ht [_] rfl ⟨rfl, rfl⟩ ⟨rfl, rfl, rfl, rfl⟩ rfl
      (by simp [Event.subject, HandoffLock.Event.task, CondVar.Event.task, transferOf])
  | sleepback ht _ | reacquire ht _ _ =>
    exact h.comeBack ht [_, _] rfl ⟨rfl, rfl⟩ ⟨rfl, rfl, rfl, rfl⟩ rfl
      (by simp [Event.subject, HandoffLock.Event.task, CondVar.Event.task, transferOf])
  | qacquire ht _ =>
    exact ⟨pl, h.stay (h.user ht) (.events [_] rfl rfl rfl rfl
      (by simp [Event.subject, HandoffLock.Event.task, transferOf])) rfl rfl rfl rfl
      (fun _ => rfl) rfl rfl rfl⟩
  | qblock ht _ => exact h.qblock ht
  | qunlock ht _ =>
    obtain ⟨pl', h', _⟩ := h.unlock (h.user ht) _
    exact ⟨pl', h'⟩
  | tasksleep ht _ => exact h.sleep (h.user ht) _
  | wakeup ht hq =>
    exact ⟨_, h.wake (by simp) hq
      (.emit (.refl _ _ _) (.inr rfl) fun _ _ => rfl) rfl rfl rfl rfl rfl
      rfl rfl (h.granted_woken (h.placed.mem_list.mp (by simp [hq])) rfl)⟩

theorem RWMove.inv {l : Option Call} {a b : Sys Queues} {pl : Placement} (h : Inv a pl)
    (m : RWMove l a b) : ∃ pl', Inv b pl' := by
  cases m with
  | rback ht | wback ht =>
    exact h.comeBack ht [_] rfl ⟨rfl, rfl⟩ ⟨rfl, rfl, rfl, rfl⟩ rfl
      (by simp [Event.subject, ReadWriteLock.Event.task, transferOf])
  | racquire ht _ _ | wacquire ht _ _ =>
    exact ⟨pl, h.stay (h.user ht) (.events [_] rfl rfl rfl rfl
      (by simp [Event.subject, ReadWriteLock.Event.task, transferOf])) rfl rfl rfl rfl
      (fun _ => rfl) rfl rfl rfl⟩
  | rblock ht _ | wblock ht _ =>
    exact ⟨_, h.block (h.user ht) (.inl rfl) (by simp) (.emit (.refl _ _ _) (.inr rfl)
      fun _ _ => rfl) rfl rfl rfl rfl rfl rfl trivial⟩
  | runlock ht => exact h.readUnlock (h.user ht) _
  | wunlock ht _ _ => exact h.writeUnlock (h.user ht) _

theorem LifeMove.inv {l : Option Call} {a b : Sys Queues} {pl : Placement} (h : Inv a pl)
    (m : LifeMove l a b) : ∃ pl', Inv b pl' := by
  cases m with
  | create fn ht _ _ hp => exact ⟨_, h.create fn hp⟩
  | startfd ht _ _ hp _ => exact ⟨_, h.setStarted.create .fdtask hp⟩
  | taskexit v ht => exact ⟨_, h.exit (h.user ht) (.inl rfl) v⟩

theorem FdMove.inv {l : Option Call} {a b : Sys Queues} {pl : Placement} (h : Inv a pl)
    (m : FdMove l a b) : ∃ pl', Inv b pl' := by
  cases m with
  | fdcall ht => exact ⟨_, (h.tasksystem _).yield (h.user ht) (.inl rfl) trivial (by simp)⟩
  | fdyield ht =>
    rcases ht with ⟨ht, _⟩ | ⟨n, ht⟩
    · exact ⟨_, h.yield (h.resuming ht) (.inr rfl) trivial (by simp)⟩
    · exact ⟨_, h.yield (h.resuming ht) (.inr rfl) trivial (by simp)⟩
  | taskdelay now ms ht _ => exact ⟨_, h.taskdelay (h.user ht) _ _ _⟩
  | fdwait fd events ht _ hn => exact ⟨_, h.fdwait (h.user ht) _ _ _⟩
  | poll now ht hn => exact ⟨pl, h.emit rfl fun _ => rfl⟩
  | revents _ ht =>
    exact ⟨pl, h.quiet (.same rfl rfl rfl rfl) rfl rfl rfl rfl (fun _ => rfl)
      (h.onCpu.congr rfl rfl)⟩
  | pollwake ht hi hr => exact ⟨_, h.pollwake hi⟩
  | timerwake now ht _ hq hd =>
    exact ⟨_, h.wake (by simp) hq (.same rfl rfl rfl rfl) rfl rfl rfl rfl rfl rfl rfl
      (h.granted_sleeping (h.placed.mem_list.mp (by simp [hq])) _)⟩

theorem Move.inv {l : Option Call} {a b : Sys Queues} {pl : Placement} (h : Inv a pl)
    (m : Move l a b) : ∃ pl', Inv b pl' := by
  cases m with
  | exit | stall | exitall | nomem | toomany | unowned | oops | unwritten | hasreaders =>
    exact ⟨pl, h.halt _⟩
  | dispatch hc _ hq => exact ⟨_, h.dispatch hc hq⟩
  | note e he => exact ⟨pl, h.emit (by cases e <;> first | rfl | cases he) fun base => by
      cases e <;> first | rfl | cases he⟩
  | back ht _ => exact h.comeBack ht [] rfl ⟨rfl, rfl⟩ ⟨rfl, rfl, rfl, rfl⟩ rfl (by simp)
  | altback ht _ _ =>
    exact ⟨_, h.back (h.resuming ht) (.events [_] rfl rfl rfl rfl
      (by simp [Event.subject, transferOf])) rfl rfl rfl rfl (fun _ => rfl) rfl rfl rfl⟩
  | life m => exact m.inv h
  | fd m => exact m.inv h
  | tasksystem _ => exact ⟨pl, h.tasksystem _⟩
  | taskyield ht => exact ⟨_, h.yield (h.user ht) (.inl rfl) trivial (by simp)⟩
  | queuing m => exact m.inv h
  | rw m => exact m.inv h
  | altrun ht has hbase hi hx =>
    obtain ⟨_, _, pl', _, hb, _⟩ := h.altrun_of_ok ht hbase hi hx
    exact ⟨pl', hb.emit rfl fun _ => rfl⟩
  | altfail ht has hbase hi hn =>
    exact ⟨pl, (h.altenter _ (h.user ht) (h.fresh ht hbase)).emit rfl fun _ => rfl⟩
  | altblock ht has hbase hi hn hq =>
    obtain ⟨b', hok, hb⟩ := h.altwait ht has hbase hi
    cases hok.symm.trans hq
    exact ⟨_, hb⟩
  | write mem ht =>
    exact ⟨pl, h.quiet (.same rfl rfl rfl rfl) rfl rfl rfl rfl (fun _ => rfl)
      (h.onCpu.congr rfl rfl)⟩

/-- The globals before the first task is created: all lists are empty. -/
def Program.empty (P : Program) : Sys Queues := P.globals.withLinks fun _ => ([] : List TaskPtr)

/-- The start of the abstract machine: nothing but the first task, ready to run. -/
def Program.start (P : Program) : Sys Queues := P.empty.create .user P.taskmain

theorem Program.start_log (P : Program) : P.start.log = [.ready P.taskmain] := rfl

theorem Program.inv_empty (P : Program) : Inv P.empty fun _ => none where
  placed := ⟨fun _ _ => rfl, fun _ => rfl, fun _ => rfl⟩
  live t := by simp [Program.empty, Program.globals, Sys.withLinks]
  onCpu := ⟨fun t => by simp [Program.empty, Program.globals, Sys.withLinks],
    fun _ => rfl, nofun, nofun⟩
  fits := by simp
  exiting _ _ := rfl
  unique t u base ht := absurd rfl ht.2.1
  queue c op hop := by
    have harr : (P.empty.chan c).arr op = [] := by cases op <;> rfl
    simp [harr, Enqueued]
  ring c := by
    refine ⟨P.bufsize_lt c, P.elemsize_lt c, Nat.zero_le _, fun h => h, fun _ => rfl, fun _ => ?_⟩
    simp [Channel.held, Program.empty, Program.globals, Sys.withLinks, chancreate]
  idle c := ⟨fun _ h => absurd rfl h, fun _ h => absurd rfl h, fun _ p hp => by cases hp⟩

theorem Program.inv_start (P : Program) : ∃ pl, Inv P.start pl :=
  ⟨_, P.inv_empty.create .user (by simp [Program.empty, Program.globals, Sys.withLinks])⟩

end Libtask
