import Libtask.Abstract.Locality
import Libtask.Properties.Channels
import Libtask.Refine.Silent

/-! An alt commits exactly one branch: the queues hold the branches of the blocked calls and
no others, and a call that returns a branch had that branch executed, once. -/
namespace Libtask
open Function Runs

/-- A transfer was made for branch `i` of a call that returns it, for no other branch, and the
caller was made ready at most once. -/
def OneBranch (e : Event) (older : List Event) : Prop :=
  ∀ t base i, e = .altret t base i → 0 ≤ i →
    transfers t base older = [i.toNat] ∧ readied t base older ≤ 1

/-- Events that report what a call returns. -/
def Event.isReturn : Event → Bool
  | .ret _ _ | .altret _ _ _ => true
  | _ => false

theorem OneBranch.of_isReturn {e : Event} (he : e.isReturn = false) (older : List Event) :
    OneBranch e older := by
  rintro t base i rfl
  cases he

/-- What a move means for the calls of `chanalt`. -/
inductive AltStep (a b : Sys Queues) : Prop
  | note (e : Event) (he : e.neutral = true) (hlog : b.log = e :: a.log) (hchan : b.chan = a.chan)
  | quiet (hlog : b.log = a.log) (hchan : b.chan = a.chan)
  | events (new : List Event) (hne : new ≠ []) (hlog : b.log = new ++ a.log)
      (hnew : ∀ e ∈ new, e.isReturn = false)
  | altret (new : List Event) (t : TaskPtr) (base : ℕ) (i : ℤ)
      (hlog : b.log = .altret t base i :: (new ++ a.log)) (hnew : ∀ e ∈ new, e.isReturn = false)
      (hone : OneBranch (.altret t base i) (new ++ a.log))
      (hfree : ∀ c op, ∀ p ∈ (b.chan c).arr op, p.base ≠ base)

theorem AltStep.of_logExt {a b : Sys Queues} (h : LogExt (fun e => e.isReturn = false) a b)
    (hchan : b.chan = a.chan) : AltStep a b := by
  obtain ⟨new, hlog, hnew⟩ := h
  by_cases hne : new = []
  · subst hne
    exact .quiet hlog hchan
  · exact .events new hne hlog hnew

theorem ObjMove.altStep {a b : Sys Queues} (h : ObjMove a b) : AltStep a b := by
  refine .of_logExt (h.logExt.mono fun e he => ?_) h.chan
  rcases he with ⟨o, ho⟩ | ⟨u, rfl⟩
  · cases e <;> first | rfl | cases ho
  · rfl

section
variable {lab : Option Call} {a b : Sys Queues} {pl : Placement} {t : TaskPtr} {base : ℕ} {op : Op}

theorem mem_arr_queued {x : Channel} {p : AltPtr} (hp : p ∈ x.arr op) : op.queued := by
  cases op with
  | CHANSND => exact .inl rfl
  | CHANRCV => exact .inr rfl
  | CHANEND | CHANNOP | CHANNOBLK => cases hp

/-- No queue refers to an array that is not that of a call in progress. -/
theorem Inv.base_ne_of_unused (h : Inv a pl) (hbase : Inv.Unused a base) {c : ℕ} {p : AltPtr}
    (hp : p ∈ (a.chan c).arr op) : p.base ≠ base := by
  rintro rfl
  obtain ⟨⟨u, hl, hr, hc, _⟩, _⟩ := (h.mem_arr_iff (mem_arr_queued hp)).mp hp
  exact hbase u hl hr hc

/-- The array of a call that resumes is that of no other call. -/
theorem Inv.unused_resuming (h : Inv a pl) (ht : a.Resuming t (.chanalt base)) :
    Inv.Unused a base := by
  intro v hl hr hc
  have hpt := h.resuming ht
  have hv : pl v ≠ some .user := fun hv => hr ((h.onCpu.running v).mpr ⟨_, hv, .inl rfl⟩)
  have hvt : v = t := h.unique v t base ⟨hc, mt (h.live v).mp (not_not.mpr hl), hv⟩
    ⟨ht.2.2, by simp [hpt], by simp [hpt]⟩
  rw [hvt] at hr
  exact hr ht.1

/-- What a call that is executed at once logs before it returns. -/
theorem logExt_altrun {c : ℕ} {evs : List ChanEvent} {as : List Alt}
    (hb : ChanOnly c evs (a.altenter base as t) b) (u : Option TaskPtr) :
    LogExt (fun e => e.isReturn = false) a (b.readyOpt u) := by
  have hent : LogExt (fun e => e.isReturn = false) a (a.altenter base as t) := .emit rfl rfl
  have hexec : LogExt (fun e => e.isReturn = false) (a.altenter base as t) b := by
    rw [hb]
    exact ⟨evs.map (.chan c), rfl, by simp [Event.isReturn]⟩
  refine (hent.trans hexec).trans ?_
  cases u with
  | none => exact .same rfl
  | some u => exact .emit (e := .ready u) rfl rfl

theorem readyOpt_altenter {c : ℕ} {evs : List ChanEvent} {as : List Alt}
    (hb : ChanOnly c evs (a.altenter base as t) b) (u : Option TaskPtr) :
    (b.readyOpt u).live = a.live ∧ (b.readyOpt u).taskrunning = a.taskrunning ∧
      ∀ v, ((b.readyOpt u).task v).context = (a.task v).context := by
  rw [hb]
  cases u with
  | none => exact ⟨rfl, rfl, fun _ => rfl⟩
  | some u => exact ⟨rfl, rfl, fun _ => Inv.ready_context _ _ _⟩

theorem LifeMove.altStep (m : LifeMove lab a b) : AltStep a b := by
  cases m with
  | create | startfd => exact .events [_] (by simp) rfl (by simp [Event.isReturn])
  | taskexit v =>
    rw [taskexit_eq]
    exact .events [_] (by simp) rfl (by simp [Event.isReturn])

theorem FdMove.altStep (m : FdMove lab a b) : AltStep a b := by
  cases m with
  | fdyield | taskdelay | fdwait | poll | pollwake | timerwake =>
    exact .events [_] (by simp) rfl (by simp [Event.isReturn])
  | fdcall =>
    unfold Libtask.tasksystem
    split <;> exact .events [.ready _] (by simp) rfl (by simp [Event.isReturn])
  | revents => exact .quiet rfl rfl

theorem Move.altStep (hI : Inv a pl) (m : Move lab a b) : AltStep a b := by
  cases m with
  | queuing m => exact m.objMove.altStep
  | rw m => exact m.objMove.altStep
  | exit | stall | exitall | nomem | toomany | unowned | oops | unwritten | hasreaders | back |
      write => exact .quiet rfl rfl
  | tasksystem =>
    unfold Libtask.tasksystem
    split <;> exact .quiet rfl rfl
  | note e he => exact .note e he rfl rfl
  | dispatch | taskyield => exact .events [_] (by simp) rfl (by simp [Event.isReturn])
  | life m => exact m.altStep
  | fd m => exact m.altStep
  | @altback _ t base x h hx hb =>
    have hg : (a.task t).context.granted a t := hI.fits t _ (hI.resuming h)
    rw [h.2.2] at hg
    obtain ⟨j, y, hy, hyx, htr, hrd⟩ := hg
    cases hx.symm.trans hy
    refine .altret [] t base _ rfl (by simp) ?_ fun c op p hp => ?_
    · rintro _ _ _ ⟨⟩ _
      rw [hyx]
      exact ⟨htr, by rw [List.nil_append, hrd]⟩
    · exact hI.base_ne_of_unused (hI.unused_resuming h) hp
  | @altrun _ b t base i _ _ as u h has hbase hi hx =>
    obtain ⟨c, evs, pl', hb, hIb, hu, htr⟩ := hI.altrun_of_ok h hbase hi hx
    obtain ⟨htrans, hready⟩ := Inv.altrun_log hb hu
    obtain ⟨new, hlog, hnew⟩ := logExt_altrun hb u
    refine .altret new t base i (congrArg _ hlog) hnew ?_ fun c op p hp => ?_
    · rintro _ _ _ ⟨⟩ _
      rw [← hlog, htrans, hready, htr]
      exact ⟨rfl, Nat.zero_le 1⟩
    · obtain ⟨hlive, hrun, hctx⟩ := readyOpt_altenter hb u
      refine hIb.base_ne_of_unused (fun v hl hr => ?_) (p := p) hp
      rw [hctx]
      exact hbase v (hlive ▸ hl) (hrun ▸ hr)
  | @altfail _ t base _ as h _ hbase =>
    refine .altret [.altcall t base] t base (-1) rfl
      (by simp [Event.isReturn]) ?_ fun c op p hp => ?_
    · rintro _ _ _ ⟨⟩ hi
      omega
    · exact hI.base_ne_of_unused hbase (p := p) hp
  | @altblock _ b t base _ as _ _ _ _ _ hq =>
    refine .events [.altcall t base] (by simp) ?_ (by simp [Event.isReturn])
    rw [altqueueAll_altenter hq]
    rfl

end

/-- What the calls of `chanalt` that have returned did, and that their arrays are free. -/
structure AltsReturned (a : Sys Queues) : Prop where
  once : Always OneBranch a.log
  free : ∀ t base i older,
    a.log = .altret t base i :: older ∨ a.log = .ret t i :: .altret t base i :: older →
      ∀ c op, ∀ p ∈ (a.chan c).arr op, p.base ≠ base

theorem AltsReturned.step {a b : Sys Queues} (h : AltsReturned a) (hs : AltStep a b) :
    AltsReturned b := by
  cases hs with
  | note e he hlog hchan =>
    have hret : ∀ t base i, e ≠ .altret t base i := by
      rintro t base i rfl
      cases he
    constructor
    · rw [hlog]
      exact always_cons (fun t base i hi => absurd hi (hret t base i)) h.once
    · rintro t base i older (hl | hl) <;> rw [hlog] at hl
      · exact absurd (List.cons.inj hl).1 (hret t base i)
      · rw [hchan]
        exact h.free t base i older (.inl (List.cons.inj hl).2)
  | quiet hlog hchan =>
    constructor
    · rw [hlog]
      exact h.once
    · rw [hlog, hchan]
      exact h.free
  | events new hne hlog hnew =>
    obtain ⟨e, new, rfl⟩ := List.exists_cons_of_ne_nil hne
    have he := hnew e (by simp)
    constructor
    · rw [hlog]
      exact always_append (fun d hd older => .of_isReturn (hnew d hd) older) h.once
    · rintro t base i older (hl | hl) <;> rw [hlog] at hl
      · obtain ⟨rfl, _⟩ := List.cons.inj hl
        cases he
      · obtain ⟨rfl, _⟩ := List.cons.inj hl
        cases he
  | altret new t base i hlog hnew hone hfree =>
    constructor
    · rw [hlog]
      have hold := always_append (fun d hd older => .of_isReturn (hnew d hd) older) h.once
      exact always_cons hone hold
    · rintro t' base' i' older (hl | hl) <;> rw [hlog] at hl
      · obtain ⟨⟨⟩, _⟩ := List.cons.inj hl
        exact hfree
      · cases (List.cons.inj hl).1

theorem ReachedBy.altsReturned {ok : Sys Queues → Call → Prop} {a : Sys Queues}
    (h : ReachedBy ok a) : AltsReturned a := by
  induction h using Reach.induct with
  | init h =>
    obtain ⟨P, rfl⟩ := h
    have hlog : P.start.log = [.ready P.taskmain] := rfl
    constructor
    · rw [hlog]
      exact always_cons (.of_isReturn rfl []) (always_nil OneBranch)
    · rintro t base i older (hl | hl) <;> simp [hlog] at hl
  | step h hs ih =>
    obtain ⟨pl, hI⟩ := ReachedBy.inv h
    obtain ⟨_, m, _⟩ := hs
    exact ih.step (m.altStep hI)

/-- What `chanalt` reports of a call is what the caller gets, at once. -/
def Returned (log : List Event) : Prop :=
  ∀ newer older t base i, log = newer ++ .altret t base i :: older →
    newer.getLast? = some (.ret t i)

theorem Returned.append {log : List Event} (h : Returned log) (new : List Event)
    (hnew : ∀ t base i, .altret t base i ∉ new) : Returned (new ++ log) := by
  intro newer older t base i hl
  rcases List.append_eq_append_iff.mp hl with ⟨mid, rfl, hmid⟩ | ⟨mid, rfl, hmid⟩
  · rw [List.getLast?_append, h mid older t base i hmid, Option.some_or]
  · cases mid with
    | nil =>
      have hnil := h [] older t base i (by simpa using hmid.symm)
      cases hnil
    | cons e mid =>
      rw [List.cons_append, List.cons.injEq] at hmid
      exact absurd (by simp [hmid.1]) (hnew t base i)

theorem Returned.ret {log : List Event} (h : Returned log) (t : TaskPtr) (base : ℕ) (i : ℤ) :
    Returned (.ret t i :: .altret t base i :: log) := by
  intro newer older t' base' i' hl
  match newer with
  | [] => cases hl
  | [e] =>
    simp only [List.cons_append, List.nil_append, List.cons.injEq, Event.altret.injEq] at hl
    obtain ⟨rfl, ⟨rfl, _, rfl⟩, _⟩ := hl
    rfl
  | e :: d :: newer =>
    simp only [List.cons_append, List.cons.injEq] at hl
    have hlast := h newer older t' base' i' hl.2.2
    rw [List.getLast?_cons, List.getLast?_cons, hlast]
    rfl

section
variable {s s' : Sys Links} {a : Sys Queues} {pl : Placement} {t : TaskPtr} {base : ℕ}
  {as : List Alt} {e : Env}

/-- A call of `chanalt` blocks, or comes back with the value that it reports. -/
theorem chanalt_returns {rand₁ rand₂ : ℕ} (h : Sim s a) (hI : Inv a pl) (ht : a.User t)
    (has : ∃ x ∈ as, isAltend x.op) (hbase : Inv.Unused a base)
    (hs : s' = finish t s (chanalt base rand₁ rand₂ t
      ({ s with alts := update s.alts base as }.emit (.altcall t base)))) :
    s'.control = .scheduler ∧ LogExt (fun e => e.isReturn = false) s s' ∨
    s'.control = .user ∧ ∃ i s₁, LogExt (fun e => e.isReturn = false) s s₁ ∧
      s'.log = .ret t i :: .altret t base i :: s₁.log := by
  have hent := h.altenter base as t
  rw [hs, chanalt_eq, ← h.altpick_altenter]
  cases hi : altpick base (a.altenter base as t) (altlen as) rand₁ with
  | some i =>
    right
    obtain ⟨b, u, c, evs, pl', hok, hb, hinv, _, _⟩ := hI.altrun ht hbase hi rand₂
    obtain ⟨s₁, hok', hs₁⟩ := hent.altexecMatch hok
    have hlog : (u.elim s₁ fun v => taskready v s₁).log = (b.readyOpt u).log := by
      cases u with
      | none => exact hs₁.log.symm
      | some u => exact congrArg (Event.ready u :: ·) hs₁.log.symm
    simp only [altexec_eq hok', Except.map]
    refine ⟨rfl, i, u.elim s₁ fun v => taskready v s₁, ?_, rfl⟩
    obtain ⟨new, hnew, hret⟩ := logExt_altrun hb u
    exact ⟨new, by rw [hlog, hnew, h.log], hret⟩
  | none =>
    simp only
    split
    · left
      obtain ⟨b, hok, hinv⟩ := hI.altwait ht has hbase hi
      have hex := hinv.not_exiting (update_self ..)
      rw [Sys.switch_exiting] at hex
      obtain ⟨s₁, hok', hs₁⟩ := hent.altqueueAll hok
      have hsw := hs₁.taskswitch (.chanalt base) hex
      simp only [hok', Except.map]
      refine ⟨hsw.control, .emit (e := .altcall t base) rfl ?_⟩
      show (taskswitch (.chanalt base) t s₁).log = _
      rw [← hsw.log, ← h.log, altqueueAll_altenter hok]
      rfl
    · exact .inr ⟨rfl, -1, s.altenter base as t, .emit (e := .altcall t base) rfl rfl, rfl⟩

/-- A call of `chanalt` that goes on after it was blocked comes back with a branch. -/
theorem chanaltBack_returns (h : Sim s a) (hI : Inv a pl) (ht : a.Resuming t (.chanalt base)) :
    ∃ i : ℤ, 0 ≤ i ∧ (finish t s (chanaltBack base t s)).control = .user ∧
      (finish t s (chanaltBack base t s)).log = .ret t i :: .altret t base i :: s.log := by
  have hg : (a.task t).context.granted a t := hI.fits t _ (hI.resuming ht)
  rw [ht.2.2] at hg
  obtain ⟨j, x, hx, hxj, _⟩ := hg
  have hd : s.deref ⟨base, 0⟩ = .ok x := by
    obtain ⟨q, hq, rfl⟩ := h
    exact deref_eq hx
  have hok : chanaltBack base t s = .ok (s.emit (.altret t base j), .value j) := by
    simp [chanaltBack, hd, hxj, bind, Except.bind, pure, Except.pure]
  rw [hok]
  exact ⟨j, by omega, rfl, rfl⟩

/-- What a step of the program does for the calls of `chanalt`. -/
theorem step_returns {act : Action} (h : Reachable s) (hs : step (e, act) s = some s') :
    (∀ t base as, act = .call (.chanalt base as) → s.taskrunning = some t →
      s'.control = .scheduler ∧ LogExt (fun e => e.isReturn = false) s s' ∨
      s'.control = .user ∧ ∃ i s₁, LogExt (fun e => e.isReturn = false) s s₁ ∧
        s'.log = .ret t i :: .altret t base i :: s₁.log) ∧
    ∀ t base, act = .resume → s.taskrunning = some t → (s.task t).context = .chanalt base →
      ∃ i : ℤ, 0 ≤ i ∧ s'.control = .user ∧ s'.log = .ret t i :: .altret t base i :: s.log := by
  obtain ⟨a, pl, _, hI, hsim⟩ := h.sim
  constructor
  · rintro t base as rfl ht
    obtain ⟨hact, _⟩ | ⟨_, hact, _⟩ | ⟨c, u, hact, hu, hc, hadm, hs'⟩ := step_cases hs
    · cases hact
    · cases hact
    · cases hact
      cases ht.symm.trans hu
      obtain ⟨q, hq, rfl⟩ := hsim
      exact chanalt_returns ⟨q, hq, rfl⟩ hI ⟨ht, hc⟩ hadm.2.1 hadm.2.2 hs'
  · rintro t base rfl ht hx
    obtain ⟨hact, _⟩ | ⟨u, _, hu, hc, hs'⟩ | ⟨_, _, hact, _⟩ := step_cases hs
    · cases hact
    · cases ht.symm.trans hu
      have hres : resume e t s = chanaltBack base t s := by simp only [resume, hx]
      rw [hs', hres]
      obtain ⟨q, hq, rfl⟩ := hsim
      exact chanaltBack_returns ⟨q, hq, rfl⟩ hI ⟨ht, hc, hx⟩
    · cases hact

theorem Returned.step {act : Action} (h : Reachable s) (hret : Returned s.log)
    (hs : step (e, act) s = some s') : Returned s'.log := by
  obtain ⟨hcall, hresume⟩ := step_returns h hs
  have hext : ∀ {s₁ : Sys Links}, LogExt (fun e => e.isReturn = false) s s₁ →
      Returned s₁.log := by
    rintro s₁ ⟨new, hlog, hnew⟩
    rw [hlog]
    exact hret.append new fun t base i hmem => absurd (hnew _ hmem) (by simp [Event.isReturn])
  rcases step_silent hs with ⟨new, hlog, hnew⟩ | ⟨t, base, as, rfl, ht, _⟩ |
    ⟨t, base, rfl, ht, hx, _⟩
  · rw [hlog]
    exact hret.append new fun t base i hmem => absurd (hnew _ hmem) (by simp [Event.ofAlt])
  · obtain ⟨_, hlog⟩ | ⟨_, i, s₁, hlog, hl⟩ := hcall t base as rfl ht
    · exact hext hlog
    · rw [hl]
      exact (hext hlog).ret t base i
  · obtain ⟨i, _, _, hl⟩ := hresume t base rfl ht hx
    rw [hl]
    exact hret.ret t base i

theorem Reachable.returned (h : Reachable s) : Returned s.log := by
  unfold Reachable ReachableBy at h
  induction h using Reach.induct with
  | init h =>
    obtain ⟨P, rfl⟩ := h
    obtain ⟨q, _, hstart⟩ := sim_boot P
    have hlog : P.boot.log = [.ready P.taskmain] := (congrArg Sys.log hstart).symm
    intro newer older t base i hl
    rw [hlog] at hl
    simp [List.singleton_eq_append_iff] at hl
  | step h hs ih =>
    obtain ⟨⟨e, act⟩, _, hs⟩ := hs
    exact ih.step h hs

end

/-- The channel queues are exact, and a call of `chanalt` that comes back to its caller with a
branch, at once or after it was blocked, committed that one, and left no trace in them. -/
structure CommitsOneBranch (s : Sys Links) : Prop where
  nodup : ∀ c, (s.chan c).asend.Nodup ∧ (s.chan c).arecv.Nodup
  queued : ∀ c op, op.queued → ∀ p, p ∈ (s.chan c).arr op ↔
    (∃ t, AltBlocked s t p.base) ∧ p.idx < altlen (s.alts p.base) ∧
      ∃ x, s.alt? p = some x ∧ x.c = c ∧ x.op = op
  returned : ∀ newer older t base i, s.log = newer ++ .altret t base i :: older →
    newer.getLast? = some (.ret t i)
  once : ∀ newer older t base i j, s.log = newer ++ .ret t i :: .altret t base j :: older →
    i = j ∧ (0 ≤ i → transfers t base older = [i.toNat] ∧ readied t base older ≤ 1)
  free : ∀ t base i j older, s.log = .ret t i :: .altret t base j :: older →
    ∀ c, ∀ p, p ∈ (s.chan c).asend ∨ p ∈ (s.chan c).arecv → p.base ≠ base
  call : ∀ t e base as s', s.taskrunning = some t →
    step (e, .call (.chanalt base as)) s = some s' →
    s'.control = .scheduler ∨
    s'.control = .user ∧ ∃ i older, s'.log = .ret t i :: .altret t base i :: older
  resumed : ∀ t e base s', s.taskrunning = some t → (s.task t).context = .chanalt base →
    step (e, .resume) s = some s' →
    s'.control = .user ∧ ∃ i : ℤ, 0 ≤ i ∧ s'.log = .ret t i :: .altret t base i :: s.log
  no_abort : s.control ≠ .halted (.abort .altdequeueSelf)

/-- Every alt commits exactly one branch. -/
theorem alt_commits_one {s : Sys Links} (h : Reachable s) : CommitsOneBranch s := by
  have hreturned := h.returned
  have hstep := fun (e : Env) (act : Action) (s' : Sys Links)
    (hs : step (e, act) s = some s') => step_returns h hs
  obtain ⟨_, pl, ha, hI, q, hq, rfl⟩ := h.sim
  have hret := ha.altsReturned
  constructor
  case nodup => exact fun c =>
    ⟨(hI.queue c .CHANSND (.inl rfl)).1, (hI.queue c .CHANRCV (.inr rfl)).1⟩
  case queued => exact fun c op hop p => hI.mem_arr_iff hop
  case returned => exact hreturned
  case once =>
    intro newer older t base i j hlog
    have hlast := hreturned (newer ++ [.ret t i]) older t base j (by simp [hlog])
    have hij : i = j := by simpa using hlast
    refine ⟨hij, fun hi => ?_⟩
    rw [← hij] at hlog
    have hsplit : s.log = (newer ++ [.ret t i]) ++ .altret t base i :: older := by simp [hlog]
    exact hret.once _ _ older hsplit t base i rfl hi
  case free =>
    intro t base i j older hlog c p hp
    have hlast := hreturned [.ret t i] older t base j hlog
    have hij : i = j := by simpa using hlast
    rw [← hij] at hlog
    rcases hp with hp | hp
    · exact hret.free t base i older (.inr hlog) c .CHANSND p hp
    · exact hret.free t base i older (.inr hlog) c .CHANRCV p hp
  case call =>
    intro t e base as s' ht hs
    obtain ⟨hc, _⟩ | ⟨hc, i, s₁, _, hl⟩ := (hstep e _ s' hs).1 t base as rfl ht
    · exact .inl hc
    · exact .inr ⟨hc, i, s₁.log, hl⟩
  case resumed =>
    intro t e base s' ht hx hs
    obtain ⟨i, hi, hc, hl⟩ := (hstep e _ s' hs).2 t base rfl ht hx
    exact ⟨hc, i, hi, hl⟩
  case no_abort =>
    intro hv
    have hexp := ha.halted hv
    simp [Halt.expected] at hexp

/-- A task blocks as a receiver, another sends to it, and it returns. -/
def commitRun : List (Env × Action) :=
  let junk : Alt := { c := 0, v := none, op := .CHANNOP, task := 0, xalt := ⟨0, 0⟩ }
  [(.still 0, .schedule), (.still 0, .resume), (.still 8192, .call (.taskcreate .user)),
    (.still 0, .call (chanrecv 0 0 (some 0) junk)), (.still 0, .schedule), (.still 0, .resume),
    (.still 0, .call (chansend 1 0 none junk)), (.still 0, .call .taskyield),
    (.still 0, .schedule), (.still 0, .resume)]

theorem alt_commits_one_small : ∃ s, Program.small.after (fun _ _ => True) commitRun = some s ∧
    s.log.head? = some (.ret 4096 0) ∧ CommitsOneBranch s := by
  have hlog : (Program.small.after (fun _ _ => True) commitRun).map (fun s => s.log.head?) =
      some (some (.ret 4096 0)) := by decide
  obtain ⟨s, hs, hhead⟩ := Option.map_eq_some_iff.mp hlog
  exact ⟨s, hs, hhead, alt_commits_one (Program.reachableBy_after hs)⟩

end Libtask
