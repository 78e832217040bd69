import Libtask.Refine.Sieving
import Mathlib.Algebra.BigOperators.Group.Finset.Piecewise

/-! What the tasks of the prime sieve do next, and what a step of the program leads to. -/
namespace Libtask.Primes
open Function Runs Sieve

/-- The task at place `k` of `n` has received `R` and sent `X` of it. -/
inductive Passes (n : ℕ) (R X : List ℕ) : ℕ → Prop
  | all (h : X = List.range' 2 X.length) (hle : 2 + X.length ≤ 2 ^ 31) : Passes n R X 0
  | nothing {k : ℕ} (h : X = []) : Passes n R X (k + 1)
  | rest {k q : ℕ} {xs : List ℕ} (hk : k + 2 < n) (hR : R = q :: xs)
      (hX : X <+: xs.filter fun x => ¬q ∣ x) : Passes n R X (k + 1)

section Numbers
variable {S : Setup} {st : State} {ts : List TaskPtr} {k n w c : ℕ} {R X : List ℕ} {pc : Pc}
  {op : Op} {t : TaskPtr}

theorem At.passes (h : At k n R X w pc) : Passes n R X k := by
  cases pc with
  | taskmain =>
    obtain ⟨⟨rfl, _⟩, rfl⟩ := h
    exact .all rfl (by simp)
  | put =>
    obtain ⟨⟨rfl, _⟩, hX, _, hle⟩ := h
    exact .all hX hle
  | sending =>
    obtain ⟨⟨rfl, _⟩, hX, _, hlt, _⟩ := h
    exact .all hX hlt.le
  | primetask | first =>
    obtain ⟨⟨rfl, _⟩, _, hX⟩ := h
    exact .nothing hX
  | loop =>
    obtain ⟨⟨rfl, _, hk⟩, q, xs, _, hR, hX⟩ := h
    exact .rest hk hR (by rw [hX])
  | got =>
    obtain ⟨⟨rfl, _, hk⟩, q, xs, _, hR, hX⟩ := h
    refine .rest hk hR ?_
    rw [hX, List.filter_append]
    exact List.prefix_append _ _
  | pass =>
    obtain ⟨⟨rfl, _, hk⟩, q, xs, _, hR, hX, _⟩ := h
    refine .rest hk hR ?_
    rw [hX, List.filter_append]
    exact List.prefix_append _ _

/-- What is due does not matter yet. -/
theorem Due.passes (h : Due k n R X w pc c op) : Passes n R X k := by
  rcases h with ⟨_, _, h⟩ | ⟨_, hc, h⟩
  · cases h.passes with
    | all hX hle =>
      rw [List.length_append, List.length_singleton] at hX hle
      refine .all ?_ (by omega)
      rw [List.range'_concat] at hX
      exact (List.append_inj' hX rfl).1
    | nothing hX => simp at hX
    | rest hk hR hX => exact .rest hk hR ((List.prefix_append _ _).trans hX)
  · -- zero is a multiple of every number, and is not passed on
    cases (h 0).passes with
    | all => cases hc
    | nothing hX => exact .nothing hX
    | @rest _ q xs hk hR hX =>
      cases R with
      | nil =>
        obtain ⟨rfl, rfl⟩ := List.cons.inj hR
        exact .nothing (List.prefix_nil.mp hX)
      | cons r R =>
        obtain ⟨rfl, rfl⟩ := List.cons.inj hR
        refine .rest hk rfl ?_
        simpa using hX

theorem Stands.passes {s : Sys Links} (h : Stands S s k n t pc) :
    Passes n (rcvdBy k s) (sentBy k s) k := by
  cases h with
  | rests _ h => exact h.passes
  | waits _ _ _ _ h => exact h.passes

/-- What a task has sent its successor has received or the channel between them holds. -/
theorem Sieving.channel (h : Sieving S st ts) (k : ℕ) : ∃ held,
    sentBy k st.sys = rcvdBy (k + 1) st.sys ++ held ∧ held.length ≤ S.buffer := by
  obtain ⟨a, pl, _, hI, q, _, rfl⟩ := h.reach.sim
  have hfit : (st.sys.chan k).bufsize * (st.sys.chan k).elemsize < 2 ^ 32 := by
    have := S.buffer_fits
    rw [(h.size k).1, (h.size k).2]
    omega
  have hring : RingInv (st.sys.chan k) (st.sys.log.filterMap (chanEvent k)) := hI.ring k
  have hfifo : sentOn k st.sys = received k st.sys ++ (st.sys.chan k).held := hring.fifo hfit
  refine ⟨(st.sys.chan k).held.map ulong, ?_, ?_⟩
  · rw [rcvdBy, sentBy, hfifo, List.map_append]
  · rw [List.length_map, Channel.held, Ring.length_contents, ← (h.size k).2]
    exact hring.nbuf_le

theorem Sieving.rcvdBy_initial (h : Sieving S st ts) (k : ℕ) :
    rcvdBy (k + 1) st.sys <+: sentBy k st.sys := by
  obtain ⟨held, hheld, _⟩ := h.channel k
  rw [hheld]
  exact List.prefix_append _ _

/-- The task at place `k` receives what is left of the numbers from 2 on once the tasks before it
have taken out the multiples of their primes. -/
theorem Sieving.sieved {ps : List ℕ} (h : Sieving S st ts) (hlen : ps.length = ts.length - 2)
    (hhead : Heads ps st.sys) (k : ℕ) :
    Sieved (ps.take k) (sentBy k st.sys) ∧ ∀ x ∈ sentBy k st.sys, x < 2 ^ 31 := by
  have hpasses : ∀ k, k < ts.length →
      Passes ts.length (rcvdBy k st.sys) (sentBy k st.sys) k := fun k hk =>
    (h.task k _ (List.getElem?_eq_getElem hk)).passes
  have hnone : ∀ k, ts.length ≤ k → sentBy k st.sys = [] := by
    intro k hk
    have := h.nchan
    rw [sentBy, (h.fresh k (by omega)).1]
    rfl
  have hnil : ∀ qs : List ℕ, Sieved qs [] := fun qs => ⟨0, by simp [Sieve.sieved]⟩
  induction k with
  | zero =>
    have := h.nchan
    cases hpasses 0 (by omega) with
    | all hX hle =>
      refine ⟨?_, fun x hx => ?_⟩
      · rw [hX]
        exact sieved_nil _
      · rw [hX, List.mem_range'] at hx
        omega
  | succ k ih =>
    obtain ⟨hs, hlt⟩ := ih
    have hpre := h.rcvdBy_initial k
    by_cases hk : k + 1 < ts.length
    · cases hpasses (k + 1) hk with
      | nothing hX =>
        rw [hX]
        exact ⟨hnil _, by simp⟩
      | @rest _ q xs hk2 hR hX =>
        obtain ⟨p, hp⟩ : ∃ p, ps[k]? = some p :=
          ⟨_, List.getElem?_eq_getElem (by omega)⟩
        obtain ⟨ys, hys⟩ := hhead k p hp
        obtain ⟨rfl, rfl⟩ := List.cons.inj (hR.symm.trans hys)
        have hsieved : Sieved (ps.take k) (q :: xs) := hs.initial (hR ▸ hpre)
        refine ⟨?_, fun x hx => hlt x (hpre.subset ?_)⟩
        · rw [List.take_add_one, hp]
          exact hsieved.next.initial hX
        · rw [hR]
          exact List.mem_cons_of_mem _ (List.mem_of_mem_filter (hX.subset hx))
    · rw [hnone _ (by omega)]
      exact ⟨hnil _, by simp⟩

end Numbers

section Create
variable {S : Setup} {st : State} {ts : List TaskPtr} {s s' sys' : Sys Links} {k n : ℕ}
  {t p : TaskPtr} {pc pc' : Pc}

/-- A task with a successor stands where it does when the chain grows. -/
theorem Stands.grow (h : Stands S s k n t pc) (hk : k + 1 < n) : Stands S s k (n + 1) t pc := by
  cases h with
  | rests hb h => exact .rests hb (h.grow hk)
  | waits hb ha he hv h => exact .waits hb ha he hv (h.grow hk)

/-- What `taskcreate` leaves behind when it does not run out of memory. -/
structure Created (t p : TaskPtr) (s s' : Sys Links) : Prop where
  fresh : p ∉ s.live
  log : ∃ id : ℤ, s'.log = [.ret t id, .ready p] ++ s.log
  live : s'.live = insert p s.live
  running : s'.taskrunning = s.taskrunning ∧ s'.control = .user
  chan : s'.chan = s.chan
  alts : s'.alts = s.alts
  mem : s'.mem = s.mem
  new : (s'.task p).context = .taskstart ∧ (s'.task p).startfn = .user ∧
    (s'.task p).system = false
  old : ∀ u ≠ p, (s'.task u).context = (s.task u).context ∧
    (s'.task u).startfn = (s.task u).startfn ∧ (s'.task u).system = (s.task u).system

theorem created_of_step {e : Env} (ht : s.taskrunning = some t)
    (hs : step (e, .call (.taskcreate .user)) s = some s') (hgo : ∀ v, s'.control ≠ .halted v) :
    Created t e.malloc s s' := by
  have hadm : Admits s e (.call (.taskcreate .user)) := by
    by_contra hn
    simp [step, hn] at hs
  have hs' := step_call ht hs
  by_cases h0 : e.malloc = 0
  · simp only [call, taskcreate, taskalloc, h0, if_true, bind, Except.bind, finish] at hs'
    exact absurd (by rw [hs']) (hgo (.abort .taskallocMalloc))
  · have hfresh := (hadm.1.resolve_left h0).2
    simp only [call, taskcreate_eq .user h0, bind, Except.bind, pure, Except.pure, finish] at hs'
    have htask : ∀ u, (s'.task u).context = (if u = e.malloc then .taskstart else
        (s.task u).context) ∧ (s'.task u).startfn = (if u = e.malloc then .user else
          (s.task u).startfn) ∧ (s'.task u).system = if u = e.malloc then false else
            (s.task u).system := by
      intro u
      rw [hs']
      simp only [Sys.emit, taskready_task]
      by_cases hu : u = e.malloc
      · simp [hu]
      · simp [hu]
    constructor
    case fresh => exact hfresh
    case log =>
      rw [hs']
      exact ⟨_, rfl⟩
    case live =>
      rw [hs']
      rfl
    case running =>
      rw [hs']
      exact ⟨rfl, rfl⟩
    case chan =>
      rw [hs']
      rfl
    case alts =>
      rw [hs']
      rfl
    case mem =>
      rw [hs']
      rfl
    case new => simpa using htask e.malloc
    case old =>
      intro u hu
      simpa [hu] using htask u

theorem Sieving.create {x : Input} {out : List ℤ} (h : Sieving S st ts)
    (ht : st.sys.taskrunning = some t) (hk : ts[k]? = some t) (hlast : k + 1 = ts.length)
    (hat : At k (k + 2) (rcvdBy k st.sys) (sentBy k st.sys) (word S st t) pc')
    (hprinted : ∃ ps : List ℕ, ps.length = k ∧ Heads ps st.sys ∧ Printed S ps (st.printed ++ out))
    (hs : step (x.env, .call (.taskcreate .user)) st.sys = some sys')
    (hgo : ∀ v, sys'.control ≠ .halted v) :
    Sieving S
      { sys := sys'
        pc := update (update st.pc t pc') x.env.malloc (.primetask st.nchan)
        nchan := st.nchan + 1
        printed := st.printed ++ out } (ts ++ [x.env.malloc]) := by
  have hcr := created_of_step ht hs hgo
  obtain ⟨id, hlog⟩ := hcr.log
  have hnew : ∀ e ∈ [Event.ret t id, .ready x.env.malloc], e.aside := by simp [Event.aside]
  have hplaces := places_aside hlog hnew
  have hn := h.nchan
  have hlen : (ts ++ [x.env.malloc]).length = ts.length + 1 := by simp
  have hmalloc : ∀ u ∈ ts, u ≠ x.env.malloc := by
    rintro u hu rfl
    exact hcr.fresh ((h.live _).mpr hu)
  have hfresh : ∀ c, st.nchan ≤ c → sentOn c sys' = [] ∧ received c sys' = [] := by
    intro c hc
    obtain ⟨hsent, hrcvd⟩ := transferred_aside hlog hnew c
    rw [hsent, hrcvd]
    exact h.fresh c hc
  constructor
  case reach => exact h.reach.snoc hs
  case going => exact hgo
  case nodup =>
    rw [List.nodup_append]
    refine ⟨h.nodup, List.nodup_singleton _, ?_⟩
    intro u hu v hv
    rw [List.mem_singleton.mp hv]
    exact hmalloc u hu
  case live =>
    intro u
    rw [hcr.live, Finset.mem_insert, h.live, List.mem_append, List.mem_singleton, or_comm]
  case nchan =>
    rw [hlen, hn]
  case fresh =>
    intro c hc
    have hc' : st.nchan + 1 ≤ c := hc
    exact hfresh c (by omega)
  case size =>
    rw [hcr.chan]
    exact h.size
  case kind =>
    intro u hu
    rcases List.mem_append.mp hu with hu | hu
    · obtain ⟨_, hfn, hsys⟩ := hcr.old u (hmalloc u hu)
      rw [hfn, hsys]
      exact h.kind u hu
    · rw [List.mem_singleton.mp hu]
      exact hcr.new.2
  case context =>
    intro u hu
    rcases List.mem_append.mp hu with hu | hu
    · rw [(hcr.old u (hmalloc u hu)).1, hcr.running.1]
      exact (h.context u hu).imp_left fun hrun => ⟨hrun.1, hcr.running.2⟩
    · rw [List.mem_singleton.mp hu]
      exact .inr (.inl hcr.new.1)
  case task =>
    intro j u hj
    rw [hlen]
    show Stands S sys' j (ts.length + 1) u
      (update (update st.pc t pc') x.env.malloc (.primetask st.nchan) u)
    by_cases hold : j < ts.length
    · rw [List.getElem?_append_left hold] at hj
      have hne := hmalloc u (List.mem_of_getElem? hj)
      have hword : sys'.word (S.val u) = st.sys.word (S.val u) := by
        rw [Sys.word, hcr.mem, Sys.word]
      rw [update_of_ne hne]
      by_cases hu : u = t
      · subst hu
        obtain rfl := h.place_unique hk hj
        rw [update_self]
        apply Stands.rests fun hb => hb.2.1 (hcr.running.1.trans ht)
        rw [(hplaces j).1, (hplaces j).2, hword, ← hlast]
        exact hat
      · rw [update_of_ne hu]
        have hjk : j ≠ k := by
          rintro rfl
          exact hu (Option.some.inj (hj.symm.trans hk))
        have hstay := (h.task j u hj).grow (by omega)
        apply hstay.aside hlog hnew hcr.alts hword
        apply altBlocked_aside hlog hnew
        · rw [hcr.live, Finset.mem_insert]
          exact or_iff_right hne
        · exact (hcr.old u hne).1
        · exact fun hb => hcr.running.1 ▸ hb.2.1
        · exact fun hrun => hcr.running.1.trans hrun
    · rw [List.getElem?_append_right (by omega)] at hj
      have hlt := (List.getElem?_eq_some_iff.mp hj).choose
      rw [List.length_singleton] at hlt
      obtain rfl : j = st.nchan + 1 := by omega
      have hu : u = x.env.malloc := by
        rw [show st.nchan + 1 - ts.length = 0 by omega] at hj
        exact (Option.some.inj hj).symm
      subst hu
      rw [update_self]
      apply Stands.rests
      · intro hb
        cases hcr.new.1.symm.trans hb.2.2.1
      · refine ⟨⟨rfl, by omega⟩, ?_, ?_⟩
        · rw [rcvdBy, (hfresh st.nchan le_rfl).2]
          rfl
        · rw [sentBy, (hfresh (st.nchan + 1) (by omega)).1]
          rfl
  case printed =>
    obtain ⟨ps, hps, hhead, hout⟩ := hprinted
    refine ⟨ps, by rw [hps, hlen, ← hlast]; rfl, fun k p hp => ?_, hout⟩
    rw [(hplaces (k + 1)).1]
    exact hhead k p hp

end Create

section Stall
variable {S : Setup} {st : State} {ts : List TaskPtr} {k c : ℕ} {t u : TaskPtr}

/-- No sender and receiver are blocked on one channel at a time. -/
theorem Sieving.not_both (h : Sieving S st ts) (ht : BlockedOn st.sys t c .CHANSND)
    (hu : BlockedOn st.sys u c .CHANRCV) : t = u := by
  obtain ⟨a, pl, _, hI, q, _, rfl⟩ := h.reach.sim
  obtain ⟨p, hp, hpt⟩ := hI.blockedOn (.inl rfl) ht
  obtain ⟨r, hr, hru⟩ := hI.blockedOn (.inr rfl) hu
  have hidle : QueueInv (st.sys.chan c) := hI.idle c
  rcases Nat.eq_zero_or_pos (st.sys.chan c).bufsize with h0 | hbuf
  · have hpr := hidle.solo h0 p hp r hr
    rw [← hpr] at hru
    exact hI.altBlocked_unique hpt hru
  · have hfull := hidle.full hbuf (List.ne_nil_of_mem hp)
    have hempty := hidle.empty hbuf (List.ne_nil_of_mem hr)
    omega

/-- A blocked task is blocked on the transfer that is due for it. -/
theorem Sieving.blockedOn (h : Sieving S st ts) (hk : ts[k]? = some t)
    (hb : AltBlocked st.sys t (S.alts t)) : ∃ c op, BlockedOn st.sys t c op ∧
      Due k ts.length (rcvdBy k st.sys) (sentBy k st.sys) (word S st t) (st.pc t) c op := by
  cases h.task k t hk with
  | rests hb' => exact absurd hb hb'
  | @waits x e _ ha he hv hd =>
    refine ⟨x.c, x.op, ⟨S.alts t, 0, x, hb, ?_, ?_, rfl, rfl⟩, hd⟩
    · have hx : isAltend x.op = false := by
        rcases hd.queued with ho | ho <;> rw [ho] <;> rfl
      rw [ha, altlen_cons, hx]
      simp
    · rw [Sys.alt?, ha]
      rfl

/-- If all tasks were blocked each would wait for the next one to receive, and the last one has no
next one. -/
theorem Sieving.not_all_blocked (h : Sieving S st ts) :
    ¬∀ t ∈ ts, AltBlocked st.sys t (S.alts t) := by
  intro hall
  have hsends : ∀ k, (hk : k < ts.length) → BlockedOn st.sys (ts.get ⟨k, hk⟩) k .CHANSND ∧
      k + 1 < ts.length := by
    intro k hk
    induction k with
    | zero =>
      obtain ⟨c, op, hon, hdue⟩ :=
        h.blockedOn (List.getElem?_eq_getElem hk) (hall _ (List.getElem_mem hk))
      rcases hdue.queued with rfl | rfl
      · obtain rfl := hdue.place_send rfl
        exact ⟨hon, hdue.lt hk⟩
      · cases hdue.place_recv rfl
    | succ k ih =>
      obtain ⟨hprev, _⟩ := ih (by omega)
      obtain ⟨c, op, hon, hdue⟩ :=
        h.blockedOn (List.getElem?_eq_getElem hk) (hall _ (List.getElem_mem hk))
      rcases hdue.queued with rfl | rfl
      · obtain rfl := hdue.place_send rfl
        exact ⟨hon, hdue.lt hk⟩
      · obtain rfl : k = c := Nat.succ.inj (hdue.place_recv rfl)
        have hsame := h.not_both hprev hon
        have hplace := (h.nodup.get_inj_iff).mp hsame
        simp at hplace
  have hn := h.nchan
  have hlast := (hsends (ts.length - 1) (by omega)).2
  omega

/-- The scheduler always finds a task to dispatch. -/
theorem Sieving.ready (h : Sieving S st ts) (hc : st.sys.control = .scheduler) :
    st.sys.taskcount ≠ 0 ∧ ∃ t, head .taskrunqueue st.sys = some t := by
  have hn := h.nchan
  obtain ⟨t, hk⟩ : ∃ t, ts[0]? = some t := ⟨_, List.getElem?_eq_getElem (by omega)⟩
  have ht := List.mem_of_getElem? hk
  refine ⟨(h.reach.scheduler_goes_on ((h.live t).mpr ht) (h.kind t ht).2).1, ?_⟩
  by_contra hnone
  apply h.not_all_blocked
  intro u hu
  obtain ⟨a, pl, _, hI, q, hrep, rfl⟩ := h.reach.sim
  have hempty : q .taskrunqueue = [] := by
    rw [← List.head?_eq_none_iff]
    show (q .taskrunqueue).head? = none
    rw [← hrep.head]
    exact Option.eq_none_iff_forall_not_mem.mpr fun v hv => hnone ⟨v, hv⟩
  have hidle : (st.sys.withLinks q).taskrunning ≠ some u ∧
      u ∉ (st.sys.withLinks q).links .taskrunqueue := by
    rw [hI.onCpu.scheduler hc]
    exact ⟨by simp, by simp [Sys.withLinks, hempty]⟩
  have hlive : u ∈ (st.sys.withLinks q).live := (h.live u).mpr hu
  have hhome : ((st.sys.withLinks q).task u).context.home ≠ none := fun hnone =>
    (hI.running_or_queued hlive hnone).elim hidle.1 hidle.2
  rcases h.context u hu with hrun | hx | hx
  · exact absurd hrun.1 hidle.1
  · exact absurd (congrArg Context.home hx) hhome
  · apply hI.altBlocked_iff.mpr
    refine ((hI.switched_out u (.alt (S.alts u))).mp ⟨⟨hlive, hidle.1, ?_⟩, ?_⟩).1
    · rw [hI.placed.ready u]
      exact decide_eq_false fun hp => hidle.2 (hI.placed.mem_list.mpr hp)
    · exact congrArg Context.home hx

end Stall

/-- How far a task is from its last transfer, or from where it began. -/
def Pc.rank : Pc → ℕ
  | .taskmain | .primetask _ | .first _ | .got _ _ _ => 2
  | .put _ _ | .loop _ _ _ | .pass _ _ _ => 3
  | .sending _ _ => 4

/-- What the task `t` at place `k`, which is not blocked, does next. -/
inductive Goes (S : Setup) (x : Input) (st : State) (ts : List TaskPtr) (k : ℕ) (t : TaskPtr) :
    Next → Prop
  | transfers {c : ℕ} {op : Op} {pc' : Pc}
      (h : Due k ts.length (rcvdBy k st.sys) (sentBy k st.sys) (word S st t) pc' c op) :
      Goes S x st ts k t (.call (chanop (S.alts t) c op (some (S.val t)) true x.junk) pc')
  | sets {i : ℤ} {pc' : Pc} (hrank : (st.pc t).rank < pc'.rank)
      (h : At k ts.length (rcvdBy k st.sys) (sentBy k st.sys) (toUlong i) pc') :
      Goes S x st ts k t (.call (setVal S st t i) pc')
  | creates {out : List ℤ} {pc' : ℕ → Pc} (hlast : k + 1 = ts.length)
      (hrank : (st.pc t).rank < (pc' st.nchan).rank)
      (h : At k (k + 2) (rcvdBy k st.sys) (sentBy k st.sys) (word S st t) (pc' st.nchan))
      (hprinted : ∃ ps : List ℕ, ps.length = k ∧ Heads ps st.sys ∧
        Printed S ps (st.printed ++ out)) :
      Goes S x st ts k t (.create out pc')
  | ends {pc' : Pc} (hprinted : st.printed = S.primes) :
      Goes S x st ts k t (.call (.taskexitall 0) pc')
  | overflows (hpc : st.pc t = .put 0 (2 ^ 31)) : Goes S x st ts k t .fault

section Next
variable {S : Setup} {x : Input} {st : State} {ts : List TaskPtr} {k c nc : ℕ} {t : TaskPtr}
  {pc : Pc} {p : ℤ}

theorem Sieving.running (h : Sieving S st ts) (ht : st.sys.taskrunning = some t) :
    ∃ k, ts[k]? = some t ∧
      At k ts.length (rcvdBy k st.sys) (sentBy k st.sys) (word S st t) (st.pc t) := by
  obtain ⟨k, hk⟩ := h.mem_iff.mp (h.reach.running ht).1
  refine ⟨k, hk, ?_⟩
  cases h.task k t hk with
  | rests _ hat => exact hat
  | waits hb => exact absurd ht hb.2.1

/-- The numbers that go through the chain are positive `int`s. -/
theorem Sieving.number (h : Sieving S st ts) {y : ℕ} (hy : y ∈ rcvdBy (k + 1) st.sys) :
    2 ≤ y ∧ y < 2 ^ 31 ∧ int32 y = y ∧ toUlong y = y := by
  obtain ⟨ps, hlen, hhead, _⟩ := h.printed
  obtain ⟨hs, hlt⟩ := h.sieved hlen hhead k
  have hmem := (h.rcvdBy_initial k).subset hy
  have h2 := hs.two_le hmem
  have hy' := hlt y hmem
  refine ⟨h2, hy', int32_eq (by omega) (by omega), ?_⟩
  unfold toUlong
  omega

theorem Sieving.goes_first (h : Sieving S st ts) (hpc : st.pc t = .first c)
    (hat : At k ts.length (rcvdBy k st.sys) (sentBy k st.sys) (word S st t) (.first c)) :
    Goes S x st ts k t (next S x.junk t st) := by
  obtain ⟨⟨rfl, hn⟩, hR, hX⟩ := hat
  obtain ⟨_, _, hint, _⟩ := h.number (k := c) (y := word S st t) (by simp [hR])
  obtain ⟨ps, hlen, hhead, hout⟩ := h.printed
  have hps : ps.length = c := by omega
  have hsieved := (h.sieved hlen hhead c).1.initial (h.rcvdBy_initial c)
  rw [hR, List.take_of_length_le hps.le] at hsieved
  have hsnoc : FirstPrimes (ps ++ [word S st t]) := hout.first.snoc hsieved
  simp only [next, hpc, hint]
  split
  · rename_i hgt
    apply Goes.ends
    have hle : ∀ q ∈ ps, q ≤ S.goal.toNat := by
      intro q hq
      have := hout.le_goal q hq
      omega
    rw [hout.out, hsnoc.eq_primesBelow hle (by omega), Setup.primes]
  · rename_i hle
    apply Goes.creates hn.symm (by simp [hpc, Pc.rank])
    · refine ⟨⟨rfl, ?_, by omega⟩, word S st t, [], rfl, hR, hX⟩
      have := h.nchan
      omega
    · refine ⟨ps ++ [word S st t], by simp [hps], ?_, hsnoc, ?_, ?_⟩
      · intro j q hq
        by_cases hj : j < ps.length
        · rw [List.getElem?_append_left hj] at hq
          exact hhead j q hq
        · rw [List.getElem?_append_right (by omega), hps] at hq
          have hlt := (List.getElem?_eq_some_iff.mp hq).choose
          rw [List.length_singleton] at hlt
          obtain rfl : j = c := by omega
          rw [Nat.sub_self] at hq
          exact ⟨[], by rw [hR, ← Option.some.inj hq]⟩
      · intro q hq
        rcases List.mem_append.mp hq with hq | hq
        · exact hout.le_goal q hq
        · rw [List.mem_singleton.mp hq]
          omega
      · rw [hout.out]
        cases S.quiet <;> simp

theorem Sieving.goes_got (h : Sieving S st ts) (hpc : st.pc t = .got c nc p)
    (hat : At k ts.length (rcvdBy k st.sys) (sentBy k st.sys) (word S st t) (.got c nc p)) :
    Goes S x st ts k t (next S x.junk t st) := by
  obtain ⟨⟨rfl, rfl, hk⟩, q, xs, rfl, hR, hX⟩ := hat
  obtain ⟨_, _, hint, hul⟩ := h.number (k := c) (y := word S st t) (by simp [hR])
  have hq : 2 ≤ q := (h.number (k := c) (y := q) (by simp [hR])).1
  have hdvd : ((word S st t : ℤ).tmod q = 0) ↔ q ∣ word S st t := by
    rw [← Int.dvd_iff_tmod_eq_zero, Int.natCast_dvd_natCast]
  simp only [next, hpc, hint, ne_eq, hdvd, ite_not]
  rw [if_neg (by omega)]
  split
  · rename_i hdiv
    apply Goes.transfers
    refine .inr ⟨rfl, rfl, fun w => ⟨⟨rfl, rfl, hk⟩, q, xs ++ [word S st t], rfl, ?_, ?_⟩⟩
    · rw [hR]
      simp
    · rw [hX, List.filter_append, List.filter_singleton]
      simp [hdiv]
  · rename_i hdiv
    apply Goes.sets (by simp [hpc, Pc.rank])
    rw [hul]
    exact ⟨⟨rfl, rfl, hk⟩, q, xs, rfl, hR, hX, hdiv⟩

theorem Sieving.goes (h : Sieving S st ts)
    (hat : At k ts.length (rcvdBy k st.sys) (sentBy k st.sys) (word S st t) (st.pc t)) :
    Goes S x st ts k t (next S x.junk t st) := by
  cases hpc : st.pc t with
  | first c => exact h.goes_first hpc (hpc ▸ hat)
  | got c nc p => exact h.goes_got hpc (hpc ▸ hat)
  | taskmain =>
    rw [hpc] at hat
    obtain ⟨⟨rfl, hn⟩, hX⟩ := hat
    obtain ⟨ps, hlen, hhead, hout⟩ := h.printed
    simp only [next, hpc]
    apply Goes.creates hn.symm (by simp [hpc, Pc.rank])
    · have := h.nchan
      refine ⟨⟨rfl, by omega, by omega⟩, ?_⟩
      rw [hX]
      simp
    · refine ⟨ps, by omega, hhead, ?_⟩
      rwa [List.append_nil]
  | put c i =>
    rw [hpc] at hat
    obtain ⟨⟨rfl, rfl, hn⟩, hX, rfl, hle⟩ := hat
    simp only [next, hpc]
    split
    · rename_i hlt
      apply Goes.sets (by simp [hpc, Pc.rank])
      have hul : toUlong ((2 + (sentBy 0 st.sys).length : ℕ) : ℤ) =
          2 + (sentBy 0 st.sys).length := by
        unfold toUlong
        omega
      rw [hul]
      exact ⟨⟨rfl, rfl, hn⟩, hX, rfl, by omega, rfl⟩
    · rename_i hge
      apply Goes.overflows
      rw [hpc, Pc.put.injEq]
      omega
  | sending c i =>
    rw [hpc] at hat
    obtain ⟨⟨rfl, rfl, hn⟩, hX, rfl, hlt, hw⟩ := hat
    simp only [next, hpc]
    apply Goes.transfers
    refine .inl ⟨rfl, rfl, ⟨rfl, rfl, hn⟩, ?_, ?_, ?_⟩
    · rw [List.length_append, List.length_singleton, List.range'_concat, ← hX, hw, Nat.one_mul]
    · simp
      omega
    · simp
      omega
  | primetask c =>
    rw [hpc] at hat
    obtain ⟨⟨rfl, hn⟩, hR, hX⟩ := hat
    simp only [next, hpc]
    apply Goes.transfers
    refine .inr ⟨rfl, rfl, fun w => ⟨⟨rfl, hn⟩, ?_, hX⟩⟩
    rw [hR, List.nil_append]
  | loop c nc p =>
    rw [hpc] at hat
    obtain ⟨⟨rfl, rfl, hk⟩, q, xs, rfl, hR, hX⟩ := hat
    simp only [next, hpc]
    apply Goes.transfers
    refine .inr ⟨rfl, rfl, fun w => ⟨⟨rfl, rfl, hk⟩, q, xs, rfl, ?_, hX⟩⟩
    rw [hR, List.cons_append]
  | pass c nc p =>
    rw [hpc] at hat
    obtain ⟨⟨rfl, rfl, hk⟩, q, xs, rfl, hR, hX, hdiv⟩ := hat
    simp only [next, hpc]
    apply Goes.transfers
    refine .inl ⟨rfl, rfl, ⟨rfl, rfl, hk⟩, q, xs ++ [word S st t], rfl, hR, ?_⟩
    rw [hX, List.filter_append, List.filter_singleton]
    simp [hdiv]

end Next

/-- The step from `st` ended the program. -/
inductive Ended (S : Setup) (x : Input) (st st' : State) : Prop
  | done (hc : st'.sys.control = .halted (.exit 0)) (hprinted : st'.printed = S.primes)
  | nochan (hc : st'.sys.control = .halted (.exit 1)) (hmem : x.chanmem = false)
      (hprinted : st'.printed <+: S.primes)
  | notask (hc : st'.sys.control = .halted (.abort .taskallocMalloc)) (hmem : x.env.malloc = 0)
      (hprinted : st'.printed <+: S.primes)
  | overflow {t : TaskPtr} (hc : st'.sys.control = .halted .fault)
      (ht : st.sys.taskrunning = some t) (hpc : st.pc t = .put 0 (2 ^ 31))
      (hprinted : st'.printed <+: S.primes)

/-- How many elements were sent and received on the first `n` channels. -/
def moved (n : ℕ) (s : Sys Links) : ℕ :=
  ∑ c ∈ Finset.range n, ((sentOn c s).length + (received c s).length)

/-- The tasks that are blocked. -/
def waiters (S : Setup) (s : Sys Links) : Finset TaskPtr :=
  s.live.filter fun t => AltBlocked s t (S.alts t)

def rank (st : State) : ℕ :=
  match st.sys.control, st.sys.taskrunning with
  | .resume, _ => 1
  | .user, some t => (st.pc t).rank
  | _, _ => 0

/-- A measure of what has been done. -/
def work (S : Setup) (st : State) : ℕ :=
  5 * moved st.nchan st.sys + 5 * (waiters S st.sys).card + rank st

section Work
variable {S : Setup} {x : Input} {st st' : State} {ts : List TaskPtr} {s s' sys' : Sys Links}
  {k n c : ℕ} {t : TaskPtr} {pc' : Pc} {op : Op} {snd rcv : Option ℕ}

@[simp] theorem mem_waiters : t ∈ waiters S s ↔ AltBlocked s t (S.alts t) := by
  rw [waiters, Finset.mem_filter]
  exact and_iff_right_of_imp fun hb => hb.1

theorem Pc.rank_bounds (pc : Pc) : 2 ≤ pc.rank ∧ pc.rank ≤ 4 := by
  cases pc <;> simp [Pc.rank]

theorem moved_of_exchanged (hx : Exchanged c sizeofWord snd rcv s s') (hc : c < n) :
    moved n s' = moved n s + (snd.toList.length + rcv.toList.length) := by
  have hterm : ∀ c' ∈ Finset.range n, (sentOn c' s').length + (received c' s').length =
      (sentOn c' s).length + (received c' s).length +
        if c' = c then snd.toList.length + rcv.toList.length else 0 := by
    intro c' _
    rw [hx.sent, hx.rcvd, List.length_append, List.length_append]
    by_cases hcc : c' = c
    · cases snd <;> cases rcv <;> simp [hcc] <;> omega
    · simp [hcc]
  rw [moved, Finset.sum_congr rfl hterm, Finset.sum_add_distrib, Finset.sum_ite_eq',
    if_pos (Finset.mem_range.mpr hc), moved]

theorem moved_of_calm (h : Calm S s s') : moved n s' = moved n s := by
  obtain ⟨new, hnew, hlog⟩ := h.log
  apply Finset.sum_congr rfl
  intro c _
  rw [(transferred_aside hlog hnew c).1, (transferred_aside hlog hnew c).2]

/-- A step without a transfer takes the running task further. -/
theorem work_of_calm {pc : TaskPtr → Pc} (h : Calm S st.sys sys')
    (hrank : rank st < rank { st with sys := sys', pc }) :
    work S st < work S { st with sys := sys', pc } := by
  have hw : waiters S sys' = waiters S st.sys := by
    ext u
    rw [mem_waiters, mem_waiters, h.blocked]
  simp only [work, moved_of_calm h, hw]
  omega

/-- A transfer, or a task that begins to wait for one, makes up for where the running task was. -/
theorem Sieving.transfer_work (h : Sieving S st ts) (ht : st.sys.taskrunning = some t)
    (hc : st.sys.control = .user) (hk : ts[k]? = some t)
    (hdue : Due k ts.length (rcvdBy k st.sys) (sentBy k st.sys) (word S st t) pc' c op)
    (hs : step (x.env, .call (chanop (S.alts t) c op (some (S.val t)) true x.junk)) st.sys =
      some sys') :
    work S st < work S { st with sys := sys', pc := update st.pc t pc' } := by
  have hlt := hdue.lt (List.getElem?_eq_some_iff.mp hk).choose
  have hn : c < st.nchan := by
    have := h.nchan
    omega
  have hself : t ∉ waiters S st.sys := fun hb => (mem_waiters.mp hb).2.1 ht
  have hrank : rank st ≤ 4 := by
    simp only [rank, hc, ht]
    exact (Pc.rank_bounds _).2
  have hafter : sys'.control = .user → sys'.taskrunning = some t →
      2 ≤ rank { st with sys := sys', pc := update st.pc t pc' } := by
    intro hctl hrun
    simp only [rank, hctl, hrun]
    exact (Pc.rank_bounds _).1
  have hother : ∀ {P}, Undisturbed t P st.sys sys' → ∀ u ≠ t,
      (u ∈ waiters S sys' ↔ u ∈ waiters S st.sys ∧ ¬P u) := by
    intro P hu u hut
    rw [mem_waiters, mem_waiters, hu.blocked u hut]
  unfold work
  cases (h.calling ht hc hk hdue).outcome (step_call ht hs) with
  | block hctl hb halts hx hu =>
    rw [(h.size c).1] at hx
    have hw : waiters S sys' = insert t (waiters S st.sys) := by
      ext u
      by_cases hut : u = t
      · simp [hut, hb]
      · simp [hother hu u hut, hut]
    rw [moved_of_exchanged hx hn, hw, Finset.card_insert_of_notMem hself]
    simp only [Option.toList_none, List.length_nil]
    omega
  | alone hctl hx hu =>
    rw [(h.size c).1] at hx
    have hw : waiters S sys' = waiters S st.sys := by
      ext u
      by_cases hut : u = t
      · subst hut
        rw [iff_false_right hself]
        exact fun hb => (mem_waiters.mp hb).2.1 hctl.2
      · simp [hother hu u hut]
    have := hafter hctl.1 hctl.2
    rw [moved_of_exchanged hx hn, hw]
    rcases hdue.queued with rfl | rfl
    · simp
      omega
    · simp
      omega
  | @pair u q z w hctl hut hb hz hzop hx hu =>
    rw [(h.size c).1] at hx
    have hbase := h.base_eq hb
    have hw : waiters S st.sys = insert u (waiters S sys') := by
      ext v
      by_cases hvt : v = t
      · subst hvt
        rw [Finset.mem_insert, iff_false_left hself, not_or]
        exact ⟨Ne.symm hut, fun hb => (mem_waiters.mp hb).2.1 hctl.2⟩
      · rw [Finset.mem_insert, hother hu v hvt]
        by_cases hvu : v = u
        · subst hvu
          simp [← hbase, hb]
        · simp [hvu]
    have hnot : u ∉ waiters S sys' := fun hin => ((hother hu u hut).mp hin).2 rfl
    have := hafter hctl.1 hctl.2
    rw [moved_of_exchanged hx hn, hw, Finset.card_insert_of_notMem hnot]
    simp only [Option.toList_some, List.length_singleton]
    omega

/-- So does the creation of the next task. -/
theorem Sieving.create_work {out : List ℤ} (h : Sieving S st ts)
    (ht : st.sys.taskrunning = some t) (hrank : (st.pc t).rank < pc'.rank)
    (hs : step (x.env, .call (.taskcreate .user)) st.sys = some sys')
    (hgo : ∀ v, sys'.control ≠ .halted v) :
    work S st < work S
      { sys := sys'
        pc := update (update st.pc t pc') x.env.malloc (.primetask st.nchan)
        nchan := st.nchan + 1
        printed := st.printed ++ out } := by
  have hcr := created_of_step ht hs hgo
  obtain ⟨id, hlog⟩ := hcr.log
  have hnew : ∀ e ∈ [Event.ret t id, .ready x.env.malloc], e.aside := by simp [Event.aside]
  have hmoved : moved (st.nchan + 1) sys' = moved st.nchan st.sys := by
    have hsame : moved st.nchan sys' = moved st.nchan st.sys := by
      apply Finset.sum_congr rfl
      intro c _
      rw [(transferred_aside hlog hnew c).1, (transferred_aside hlog hnew c).2]
    have hnone := h.fresh st.nchan le_rfl
    rw [moved, Finset.sum_range_succ, ← moved, hsame, (transferred_aside hlog hnew _).1,
      (transferred_aside hlog hnew _).2, hnone.1, hnone.2]
    rfl
  have hw : waiters S sys' = waiters S st.sys := by
    ext u
    rw [mem_waiters, mem_waiters]
    by_cases hu : u = x.env.malloc
    · subst hu
      constructor
      · intro hb
        cases hcr.new.1.symm.trans hb.2.2.1
      · intro hb
        exact absurd hb.1 hcr.fresh
    · apply altBlocked_aside hlog hnew
      · rw [hcr.live, Finset.mem_insert]
        exact or_iff_right hu
      · exact (hcr.old u hu).1
      · exact fun hb => hcr.running.1 ▸ hb.2.1
      · exact fun hrun => hcr.running.1.trans hrun
  have hlive : t ≠ x.env.malloc := by
    rintro rfl
    exact hcr.fresh (h.reach.running ht).1
  have hbefore : rank st ≤ (st.pc t).rank := by
    have := (st.pc t).rank_bounds
    unfold rank
    split
    · omega
    · rename_i u _ hu
      rw [Option.some.inj (hu.symm.trans ht)]
    · omega
  have hafter : rank
      { sys := sys'
        pc := update (update st.pc t pc') x.env.malloc (.primetask st.nchan)
        nchan := st.nchan + 1
        printed := st.printed ++ out } = pc'.rank := by
    simp only [rank, hcr.running.2, hcr.running.1, ht, update_of_ne hlive, update_self]
  unfold work
  rw [hafter]
  simp only [hmoved, hw]
  omega

end Work

section Turn
variable {S : Setup} {x : Input} {st st' : State} {ts : List TaskPtr} {k : ℕ} {t : TaskPtr}
  {nx : Next}

theorem Printed.isPrefix {ps : List ℕ} {out : List ℤ} (h : Printed S ps out) :
    out <+: S.primes := by
  have hle : ∀ q ∈ ps, q ≤ S.goal.toNat := by
    intro q hq
    have := h.le_goal q hq
    omega
  rw [h.out, Setup.primes]
  cases S.quiet
  · exact (h.first.isPrefix hle).map _
  · exact List.prefix_rfl

theorem Sieving.out (h : Sieving S st ts) : st.printed <+: S.primes := by
  obtain ⟨ps, _, _, hout⟩ := h.printed
  exact hout.isPrefix

theorem taskcreate_halted {e : Env} {s s' : Sys Links} {v : Halt} (ht : s.taskrunning = some t)
    (hs : step (e, .call (.taskcreate .user)) s = some s') (hv : s'.control = .halted v) :
    v = .abort .taskallocMalloc ∧ e.malloc = 0 := by
  have hs' := step_call ht hs
  by_cases h0 : e.malloc = 0
  · simp only [call, taskcreate, taskalloc, h0, if_true, bind, Except.bind, finish] at hs'
    rw [hs'] at hv
    exact ⟨(Control.halted.inj hv).symm, h0⟩
  · simp only [call, taskcreate_eq .user h0, bind, Except.bind, pure, Except.pure, finish] at hs'
    rw [hs'] at hv
    cases hv

theorem Sieving.user (h : Sieving S st ts) (ht : st.sys.taskrunning = some t)
    (hc : st.sys.control = .user) (hs : Primes.user S x t st = some st') :
    (∃ ts', Sieving S st' ts' ∧ work S st < work S st') ∨ Ended S x st st' := by
  obtain ⟨k, hk, hat⟩ := h.running ht
  have hgoes := h.goes (x := x) hat
  have hpc : rank st = (st.pc t).rank := by simp only [rank, hc, ht]
  unfold Primes.user at hs
  generalize hnx : next S x.junk t st = nx at hs hgoes
  cases hgoes with
  | transfers hdue =>
    obtain ⟨sys', hstep, rfl⟩ := Option.map_eq_some_iff.mp hs
    exact .inl ⟨ts, h.transfer ht hc hk hdue hstep, h.transfer_work ht hc hk hdue hstep⟩
  | @sets i pc' hrank hat' =>
    obtain ⟨sys', hstep, rfl⟩ := Option.map_eq_some_iff.mp hs
    obtain ⟨hcalm, ⟨hctl, hrun⟩, _⟩ := write_calm ht hstep
    refine .inl ⟨ts, h.write ht hk hat' hstep, work_of_calm hcalm ?_⟩
    rw [hpc]
    simpa [rank, hctl, hrun] using hrank
  | @creates out pc' hlast hrank hat' hprinted =>
    have hout : st.printed ++ out <+: S.primes := by
      obtain ⟨ps, _, _, hout⟩ := hprinted
      exact hout.isPrefix
    cases hm : x.chanmem with
    | true =>
      rw [hm] at hs
      obtain ⟨sys', hstep, rfl⟩ := Option.map_eq_some_iff.mp hs
      by_cases hgo : ∀ v, sys'.control ≠ .halted v
      · exact .inl ⟨_, h.create ht hk hlast hat' hprinted hstep hgo,
          h.create_work ht hrank hstep hgo⟩
      · obtain ⟨v, hv⟩ := not_forall_not.mp hgo
        obtain ⟨rfl, h0⟩ := taskcreate_halted ht hstep hv
        exact .inr (.notask hv h0 hout)
    | false =>
      rw [hm] at hs
      obtain ⟨sys', hstep, rfl⟩ := Option.map_eq_some_iff.mp hs
      have hexit : sys'.control = .halted (.exit 1) := by
        rw [step_call ht hstep]
        rfl
      exact .inr (.nochan hexit hm hout)
  | ends hprinted =>
    obtain ⟨sys', hstep, rfl⟩ := Option.map_eq_some_iff.mp hs
    have hexit : sys'.control = .halted (.exit 0) := by
      rw [step_call ht hstep]
      rfl
    exact .inr (.done hexit hprinted)
  | overflows hpc =>
    obtain rfl := Option.some.inj hs
    exact .inr (.overflow rfl ht hpc h.out)

/-- One step of the program takes it further, or ends it. -/
theorem Sieving.turn (h : Sieving S st ts) (hs : Primes.turn S x st = some st') :
    (∃ ts', Sieving S st' ts' ∧ work S st < work S st') ∨ Ended S x st st' := by
  unfold Primes.turn at hs
  split at hs
  · rename_i hc
    obtain ⟨sys', hstep, rfl⟩ := Option.map_eq_some_iff.mp hs
    obtain ⟨h0, t, hhead⟩ := h.ready hc
    have hsched : sys' = taskscheduler st.sys := by
      obtain ⟨_, _, hs'⟩ | ⟨_, hact, _⟩ | ⟨_, _, hact, _⟩ := step_cases hstep
      · exact hs'
      · cases hact
      · cases hact
    have hreach := h.reach.snoc hstep
    obtain ⟨hcalm, hctl, hmem⟩ := h.dispatch hc h0 hhead
    rw [hsched] at hreach ⊢
    refine .inl ⟨ts, h.still hcalm hreach (by simp [hctl]) hmem, work_of_calm hcalm ?_⟩
    simp [rank, hc, hctl]
  · rename_i hc
    obtain ⟨sys', hstep, rfl⟩ := Option.map_eq_some_iff.mp hs
    obtain ⟨_, hc', _⟩ | ⟨t, _, ht, _, _⟩ | ⟨_, _, hact, _⟩ := step_cases hstep
    · cases hc.symm.trans hc'
    · obtain ⟨hcalm, ⟨hctl, hrun⟩, hmem⟩ := h.resumed ht hc hstep
      refine .inl ⟨ts, h.still hcalm (h.reach.snoc hstep) (by simp [hctl]) hmem,
        work_of_calm hcalm ?_⟩
      have := (st.pc t).rank_bounds
      simp only [rank, hc, hctl, hrun]
      omega
    · cases hact
  · rename_i t hc ht
    exact h.user ht hc hs
  · cases hs

end Turn

end Libtask.Primes
