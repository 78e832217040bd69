import Libtask.Base.Sieve
import Libtask.Primes
import Libtask.Properties.Lifetime
import Libtask.Refine.Chanop

/-! The prime sieve, step by step: where each task of the chain stands follows from what it has
received and sent, and while it is blocked it is for the transfer that comes next. -/
namespace Libtask.Primes
open Function Runs Sieve

/-- What the task at place `k` of the chain has received: what went through the channel before
it. -/
def rcvdBy : ℕ → Sys Links → List ℕ
  | 0, _ => []
  | c + 1, s => (received c s).map ulong

/-- What it has sent. -/
def sentBy (k : ℕ) (s : Sys Links) : List ℕ := (sentOn k s).map ulong

/-- The task at place `k` of `n`, which has received `R` and sent `X` and has `w` in its variable,
is at this point of the program. -/
def At (k n : ℕ) (R X : List ℕ) (w : ℕ) : Pc → Prop
  | .taskmain => (k = 0 ∧ n = 1) ∧ X = []
  | .put c i => (k = 0 ∧ c = 0 ∧ 1 < n) ∧ X = List.range' 2 X.length ∧
      i = (2 + X.length : ℕ) ∧ 2 + X.length ≤ 2 ^ 31
  | .sending c i => (k = 0 ∧ c = 0 ∧ 1 < n) ∧ X = List.range' 2 X.length ∧
      i = (2 + X.length : ℕ) ∧ 2 + X.length < 2 ^ 31 ∧ w = 2 + X.length
  | .primetask c => (k = c + 1 ∧ n = k + 1) ∧ R = [] ∧ X = []
  | .first c => (k = c + 1 ∧ n = k + 1) ∧ R = [w] ∧ X = []
  | .loop c nc p => (k = c + 1 ∧ nc = k ∧ k + 1 < n) ∧ ∃ (q : ℕ) (xs : List ℕ), p = q ∧
      R = q :: xs ∧ X = xs.filter fun x => ¬q ∣ x
  | .got c nc p => (k = c + 1 ∧ nc = k ∧ k + 1 < n) ∧ ∃ (q : ℕ) (xs : List ℕ), p = q ∧
      R = q :: (xs ++ [w]) ∧ X = xs.filter fun x => ¬q ∣ x
  | .pass c nc p => (k = c + 1 ∧ nc = k ∧ k + 1 < n) ∧ ∃ (q : ℕ) (xs : List ℕ), p = q ∧
      R = q :: (xs ++ [w]) ∧ (X = xs.filter fun x => ¬q ∣ x) ∧ ¬q ∣ w

/-- Once it has made the transfer `op` on channel `c` the task will be at this point. -/
def Due (k n : ℕ) (R X : List ℕ) (w : ℕ) (pc : Pc) (c : ℕ) (op : Op) : Prop :=
  (op = .CHANSND ∧ c = k ∧ At k n R (X ++ [w]) w pc) ∨
    (op = .CHANRCV ∧ k = c + 1 ∧ ∀ w', At k n (R ++ [w']) X w' pc)

/-- Where the task `t` at place `k` of `n` stands. -/
inductive Stands (S : Setup) (s : Sys Links) (k n : ℕ) (t : TaskPtr) (pc : Pc) : Prop
  | rests (hb : ¬AltBlocked s t (S.alts t))
      (h : At k n (rcvdBy k s) (sentBy k s) (ulong (s.word (S.val t))) pc)
  | waits {x e : Alt} (hb : AltBlocked s t (S.alts t)) (halts : s.alts (S.alts t) = [x, e])
      (he : e.op = .CHANEND) (hv : x.v = some (S.val t))
      (h : Due k n (rcvdBy k s) (sentBy k s) (ulong (s.word (S.val t))) pc x.c x.op)

/-- What the program is to print. -/
def Setup.primes (S : Setup) : List ℤ :=
  if S.quiet then [] else (primesBelow (S.goal.toNat + 1)).map fun p : ℕ => (p : ℤ)

/-- The first primes have been printed, if anything is, and no prime beyond the goal. -/
structure Printed (S : Setup) (ps : List ℕ) (out : List ℤ) : Prop where
  first : FirstPrimes ps
  le_goal : ∀ p ∈ ps, (p : ℤ) ≤ S.goal
  out : out = if S.quiet then [] else ps.map fun p : ℕ => (p : ℤ)

/-- These numbers are the first that the tasks of the chain have received. -/
def Heads (ps : List ℕ) (s : Sys Links) : Prop :=
  ∀ k p, ps[k]? = some p → ∃ xs, rcvdBy (k + 1) s = p :: xs

/-- The program goes on, `ts` being its tasks in the order in which they were created. -/
structure Sieving (S : Setup) (st : State) (ts : List TaskPtr) : Prop where
  reach : Reachable st.sys
  going : ∀ v, st.sys.control ≠ .halted v
  nodup : ts.Nodup
  live : ∀ t, t ∈ st.sys.live ↔ t ∈ ts
  nchan : ts.length = st.nchan + 1
  fresh : ∀ c, st.nchan ≤ c → sentOn c st.sys = [] ∧ received c st.sys = []
  size : ∀ c, (st.sys.chan c).elemsize = sizeofWord ∧ (st.sys.chan c).bufsize = S.buffer
  kind : ∀ t ∈ ts, (st.sys.task t).startfn = .user ∧ (st.sys.task t).system = false
  context : ∀ t ∈ ts, (st.sys.taskrunning = some t ∧ st.sys.control = .user) ∨
    (st.sys.task t).context = .taskstart ∨ (st.sys.task t).context = .chanalt (S.alts t)
  task : ∀ k t, ts[k]? = some t → Stands S st.sys k ts.length t (st.pc t)
  printed : ∃ ps : List ℕ, ps.length = ts.length - 2 ∧ Heads ps st.sys ∧ Printed S ps st.printed

section At
variable {k n w c : ℕ} {R X : List ℕ} {pc : Pc} {op : Op}

/-- Another task has joined the end of the chain. -/
theorem At.grow (h : At k n R X w pc) (hk : k + 1 < n) : At k (n + 1) R X w pc := by
  cases pc with
  | taskmain | primetask | first =>
    have hpos := h.1
    omega
  | put | sending =>
    obtain ⟨hpos, hrest⟩ := h
    exact ⟨⟨hpos.1, hpos.2.1, by omega⟩, hrest⟩
  | loop | got | pass =>
    obtain ⟨hpos, hrest⟩ := h
    exact ⟨⟨hpos.1, hpos.2.1, by omega⟩, hrest⟩

theorem Due.grow (h : Due k n R X w pc c op) (hk : k + 1 < n) : Due k (n + 1) R X w pc c op := by
  rcases h with ⟨hop, hc, h⟩ | ⟨hop, hc, h⟩
  · exact .inl ⟨hop, hc, h.grow hk⟩
  · exact .inr ⟨hop, hc, fun w' => (h w').grow hk⟩

theorem Due.queued (h : Due k n R X w pc c op) : op.queued := by
  rcases h with ⟨hop, _⟩ | ⟨hop, _⟩
  · exact .inl hop
  · exact .inr hop

/-- Only a task with a successor sends. -/
theorem At.lt_of_sent (h : At k n R (X ++ [w]) w pc) : k + 1 < n := by
  cases pc with
  | taskmain =>
    have hX := h.2
    simp at hX
  | primetask | first =>
    have hX := h.2.2
    simp at hX
  | put | sending =>
    have hpos := h.1
    omega
  | loop | got | pass => exact h.1.2.2

theorem Due.place_send (h : Due k n R X w pc c op) (hop : op = .CHANSND) : k = c := by
  rcases h with ⟨_, hc, _⟩ | ⟨hop', _⟩
  · exact hc.symm
  · cases hop'.symm.trans hop

theorem Due.place_recv (h : Due k n R X w pc c op) (hop : op = .CHANRCV) : k = c + 1 := by
  rcases h with ⟨hop', _⟩ | ⟨_, hc, _⟩
  · cases hop'.symm.trans hop
  · exact hc

theorem Due.lt (h : Due k n R X w pc c op) (hk : k < n) : c + 1 < n := by
  rcases h with ⟨_, rfl, h⟩ | ⟨_, rfl, _⟩
  · exact h.lt_of_sent
  · exact hk

end At

section Transfer
variable {S : Setup} {s s' : Sys Links} {k n c : ℕ} {t u : TaskPtr} {pc : Pc} {op : Op}
  {snd rcv : Option ℕ}

theorem rcvdBy_of_exchanged (hx : Exchanged c sizeofWord snd rcv s s') (k : ℕ) :
    rcvdBy k s' = rcvdBy k s ++
      if k = c + 1 then (rcv.map fun v => ulong (s'.word v)).toList else [] := by
  cases k with
  | zero => simp [rcvdBy]
  | succ j =>
    rw [rcvdBy, hx.rcvd, List.map_append, rcvdBy]
    by_cases hj : j = c
    · cases rcv <;> simp [hj, Sys.word]
    · simp [hj]

theorem sentBy_of_exchanged (hx : Exchanged c sizeofWord snd rcv s s') (k : ℕ) :
    sentBy k s' = sentBy k s ++
      if k = c then (snd.map fun v => ulong (s.word v)).toList else [] := by
  rw [sentBy, hx.sent, List.map_append, sentBy]
  by_cases hk : k = c
  · cases snd <;> simp [hk, Sys.word]
  · simp [hk]

/-- What is not received into leaves a variable as it is. -/
theorem word_of_exchanged {v : ℕ} (hx : Exchanged c sizeofWord snd rcv s s')
    (hv : ∀ w, rcv = some w → w + sizeofWord ≤ v ∨ v + sizeofWord ≤ w) :
    s'.word v = s.word v := by
  unfold Sys.word readBytes
  apply List.map_congr_left
  intro i hi
  apply hx.mem
  intro hin
  obtain ⟨w, hw, hle, hlt⟩ := hin
  have := hv w hw
  have := List.mem_range.mp hi
  omega

/-- The task at one end of a transfer that was due for it. -/
theorem Due.complete (h : Due k n (rcvdBy k s) (sentBy k s) (ulong (s.word (S.val t))) pc c op)
    (hx : Exchanged c sizeofWord snd rcv s s')
    (hs : op = .CHANSND → snd = some (S.val t) ∧
      ∀ w, rcv = some w → w + sizeofWord ≤ S.val t ∨ S.val t + sizeofWord ≤ w)
    (hr : op = .CHANRCV → rcv = some (S.val t)) :
    At k n (rcvdBy k s') (sentBy k s') (ulong (s'.word (S.val t))) pc := by
  rw [rcvdBy_of_exchanged hx, sentBy_of_exchanged hx]
  rcases h with ⟨hop, rfl, h⟩ | ⟨hop, rfl, h⟩
  · obtain ⟨hsnd, hv⟩ := hs hop
    rw [word_of_exchanged hx hv, hsnd]
    simpa using h
  · have hrcv := hr hop
    rw [hrcv]
    simpa using h (ulong (s'.word (S.val t)))

/-- A task that has no part in a transfer. -/
theorem Stands.bystander (h : Stands S s k n t pc) (hx : Exchanged c sizeofWord snd rcv s s')
    (hs : k = c → snd = none) (hr : k = c + 1 → rcv = none)
    (hv : ∀ w, rcv = some w → w + sizeofWord ≤ S.val t ∨ S.val t + sizeofWord ≤ w)
    (hb : AltBlocked s' t (S.alts t) ↔ AltBlocked s t (S.alts t))
    (halts : AltBlocked s' t (S.alts t) → s'.alts (S.alts t) = s.alts (S.alts t)) :
    Stands S s' k n t pc := by
  have hR : rcvdBy k s' = rcvdBy k s := by
    rw [rcvdBy_of_exchanged hx]
    by_cases hk : k = c + 1
    · simp [hr hk]
    · simp [hk]
  have hX : sentBy k s' = sentBy k s := by
    rw [sentBy_of_exchanged hx]
    by_cases hk : k = c
    · simp [hs hk]
    · simp [hk]
  cases h with
  | rests hb' h =>
    apply Stands.rests (mt hb.mp hb')
    rwa [hR, hX, word_of_exchanged hx hv]
  | waits hb' ha he hv' h =>
    have hb'' := hb.mpr hb'
    apply Stands.waits hb'' ((halts hb'').trans ha) he hv'
    rwa [hR, hX, word_of_exchanged hx hv]

end Transfer

section Step
variable {S : Setup} {st : State} {ts : List TaskPtr} {sys' : Sys Links} {j k c : ℕ}
  {t u : TaskPtr} {op : Op} {snd rcv : Option ℕ} {P : TaskPtr → Prop}

theorem Sieving.mem_iff (h : Sieving S st ts) : t ∈ st.sys.live ↔ ∃ k : ℕ, ts[k]? = some t := by
  rw [h.live, List.mem_iff_getElem?]

/-- No task is at two places. -/
theorem Sieving.place_unique (h : Sieving S st ts) (hk : ts[k]? = some t) (hj : ts[j]? = some t) :
    j = k := by
  obtain ⟨hlt, hget⟩ := List.getElem?_eq_some_iff.mp hk
  obtain ⟨hlt', hget'⟩ := List.getElem?_eq_some_iff.mp hj
  exact h.nodup.getElem_inj_iff.mp (hget'.trans hget.symm)

/-- The array of a task that is blocked is its own. -/
theorem Sieving.base_eq (h : Sieving S st ts) {base : ℕ} (hb : AltBlocked st.sys t base) :
    base = S.alts t := by
  rcases h.context t ((h.live t).mp hb.1) with hu | hx | hx
  · exact absurd hu.1 hb.2.1
  · cases hx.symm.trans hb.2.2.1
  · cases hx.symm.trans hb.2.2.1
    rfl

theorem Sieving.advance {pc : TaskPtr → Pc} (h : Sieving S st ts) (hreach : Reachable sys')
    (hgo : ∀ v, sys'.control ≠ .halted v)
    (hfresh : ∀ c, st.nchan ≤ c → sentOn c sys' = [] ∧ received c sys' = [])
    (hext : ∀ c, received c st.sys <+: received c sys') (hlive : sys'.live = st.sys.live)
    (hsize : ∀ c, (sys'.chan c).elemsize = (st.sys.chan c).elemsize ∧
      (sys'.chan c).bufsize = (st.sys.chan c).bufsize)
    (hkind : ∀ u, (sys'.task u).startfn = (st.sys.task u).startfn ∧
      (sys'.task u).system = (st.sys.task u).system)
    (hcontext : ∀ u ∈ ts, (sys'.taskrunning = some u ∧ sys'.control = .user) ∨
      (sys'.task u).context = .taskstart ∨ (sys'.task u).context = .chanalt (S.alts u))
    (htask : ∀ k u, ts[k]? = some u → Stands S sys' k ts.length u (pc u)) :
    Sieving S { st with sys := sys', pc } ts where
  reach := hreach
  going := hgo
  nodup := h.nodup
  live u := by
    rw [← h.live]
    show u ∈ sys'.live ↔ _
    rw [hlive]
  nchan := h.nchan
  fresh := hfresh
  size c := ⟨(hsize c).1.trans (h.size c).1, (hsize c).2.trans (h.size c).2⟩
  kind u hu := ⟨(hkind u).1.trans (h.kind u hu).1, (hkind u).2.trans (h.kind u hu).2⟩
  context := hcontext
  task := htask
  printed := by
    obtain ⟨ps, hlen, hhead, hout⟩ := h.printed
    refine ⟨ps, hlen, fun k p hp => ?_, hout⟩
    obtain ⟨xs, hxs⟩ := hhead k p hp
    obtain ⟨more, hmore⟩ := hext k
    refine ⟨xs ++ more.map ulong, ?_⟩
    rw [rcvdBy] at hxs ⊢
    rw [← hmore, List.map_append, hxs, List.cons_append]

/-- The program goes on after a transfer on a channel of the chain, called for by `t`. -/
theorem Sieving.exchange {pc : TaskPtr → Pc} (h : Sieving S st ts)
    (ht : st.sys.taskrunning = some t) (hreach : Reachable sys')
    (hgo : ∀ v, sys'.control ≠ .halted v) (hx : Exchanged c sizeofWord snd rcv st.sys sys')
    (hu : Undisturbed t P st.sys sys') (hlt : c + 1 < ts.length)
    (hself : (sys'.taskrunning = some t ∧ sys'.control = .user) ∨
      (sys'.task t).context = .chanalt (S.alts t))
    (htask : ∀ k u, ts[k]? = some u → Stands S sys' k ts.length u (pc u)) :
    Sieving S { st with sys := sys', pc } ts := by
  have hn := h.nchan
  apply h.advance hreach hgo
  case hfresh =>
    intro c' hc'
    obtain ⟨hs, hr⟩ := h.fresh c' hc'
    have hne : c' ≠ c := by omega
    rw [hx.sent, hx.rcvd, hs, hr]
    simp [hne]
  case hext =>
    intro c'
    rw [hx.rcvd]
    exact List.prefix_append _ _
  case hlive => exact hu.live
  case hsize => exact fun c' => ⟨hx.elemsize c', hx.bufsize c'⟩
  case hkind => exact hu.kind
  case hcontext =>
    intro u hmem
    by_cases hut : u = t
    · rw [hut]
      exact hself.imp_right .inr
    · rw [hu.context u hut]
      rcases h.context u hmem with hrun | hctx
      · exact absurd (Option.some.inj (hrun.1.symm.trans ht)) hut
      · exact .inr hctx
  case htask => exact htask

/-- What is known of a task that waits in a queue of a channel. -/
theorem Sieving.waiting (h : Sieving S st ts) {q : AltPtr} {z : Alt}
    (hb : AltBlocked st.sys u q.base) (hz : st.sys.alt? q = some z) (hop : z.op.queued) :
    ∃ j : ℕ, ts[j]? = some u ∧ z.v = some (S.val u) ∧
      Due j ts.length (rcvdBy j st.sys) (sentBy j st.sys) (word S st u) (st.pc u) z.c z.op := by
  obtain ⟨j, hj⟩ := h.mem_iff.mp hb.1
  have hbase := h.base_eq hb
  cases h.task j u hj with
  | rests hb' => exact absurd (hbase ▸ hb) hb'
  | @waits y e _ halts he hv hd =>
    rw [Sys.alt?, hbase, halts] at hz
    have hzy : z = y := by
      rcases hi : q.idx with _ | _ | i
      · rw [hi] at hz
        exact (Option.some.inj hz).symm
      · rw [hi] at hz
        obtain rfl : e = z := Option.some.inj hz
        rcases hop with hop | hop <;> rw [hop] at he <;> cases he
      · rw [hi] at hz
        cases hz
    rw [hzy]
    exact ⟨j, hj, hv, hd⟩

/-- What the library knows when a task calls for the transfer that is due for it. -/
theorem Sieving.calling {pc' : Pc} (h : Sieving S st ts) (ht : st.sys.taskrunning = some t)
    (hc : st.sys.control = .user) (hk : ts[k]? = some t)
    (hdue : Due k ts.length (rcvdBy k st.sys) (sentBy k st.sys) (word S st t) pc' c op) :
    Calling t (S.alts t) c op (S.val t) st.sys := by
  obtain ⟨a, pl, _, hI, hsim⟩ := h.reach.sim
  constructor
  case sim => exact ⟨a, pl, hsim, hI⟩
  case running => exact ht
  case user => exact hc
  case queued => exact hdue.queued
  case unused =>
    intro u hu hrun hctx
    rcases h.context u ((h.live u).mp hu) with hr | hs | ha
    · exact hrun hr.1
    · cases hs.symm.trans hctx
    · obtain rfl := S.alts_inj u t (Context.chanalt.inj (ha.symm.trans hctx))
      exact hrun ht
  case apart =>
    intro q hq z hz
    obtain ⟨L, _, rfl⟩ := hsim
    obtain ⟨⟨u, hu⟩, _, y, hy, _, hyo⟩ := (hI.mem_arr_iff hdue.queued.otherop).mp hq
    obtain rfl : y = z := Option.some.inj (hy.symm.trans hz)
    obtain ⟨_, _, hv, _⟩ := h.waiting hu hz (hyo ▸ hdue.queued.otherop)
    have hut : t ≠ u := by
      rintro rfl
      exact hu.2.1 ht
    rw [(h.size c).1]
    exact ⟨S.val u, hv, S.val_apart t u hut⟩

theorem Sieving.transfer {x : Input} {pc' : Pc} (h : Sieving S st ts)
    (ht : st.sys.taskrunning = some t) (hc : st.sys.control = .user) (hk : ts[k]? = some t)
    (hdue : Due k ts.length (rcvdBy k st.sys) (sentBy k st.sys) (word S st t) pc' c op)
    (hs : step (x.env, .call (chanop (S.alts t) c op (some (S.val t)) true x.junk)) st.sys =
      some sys') :
    Sieving S { st with sys := sys', pc := update st.pc t pc' } ts := by
  have hcall := h.calling ht hc hk hdue
  have hlt := hdue.lt (List.getElem?_eq_some_iff.mp hk).choose
  have hreach := h.reach.snoc hs
  have hout := hcall.outcome (step_call ht hs)
  have hsize := (h.size c).1
  have hother : ∀ {i w}, ts[i]? = some w → w ≠ t → i ≠ k := by
    rintro i w hi hw rfl
    exact hw (Option.some.inj (hi.symm.trans hk))
  cases hout with
  | block hctl hb halts hx hu =>
    rw [hsize] at hx
    apply h.exchange ht hreach (by simp [hctl.1]) hx hu hlt (.inr hb.2.2.1)
    intro i w hi
    by_cases hw : w = t
    · subst hw
      obtain rfl := h.place_unique hk hi
      obtain ⟨y, e, ha, ⟨hyc, hyo, hyv⟩, he⟩ := halts
      rw [update_self]
      apply Stands.waits hb ha he hyv
      rw [hyc, hyo, rcvdBy_of_exchanged hx, sentBy_of_exchanged hx,
        word_of_exchanged hx (by simp)]
      simpa [word] using hdue
    · rw [update_of_ne hw]
      apply (h.task i w hi).bystander hx (fun _ => rfl) (fun _ => rfl) (by simp)
      · rw [hu.blocked w hw]
        simp
      · exact hu.alts w hw _
  | alone hctl hx hu =>
    rw [hsize] at hx
    apply h.exchange ht hreach (by simp [hctl.1]) hx hu hlt (.inl hctl.symm)
    intro i w hi
    by_cases hw : w = t
    · subst hw
      obtain rfl := h.place_unique hk hi
      rw [update_self]
      apply Stands.rests fun hb => hb.2.1 hctl.2
      apply hdue.complete hx
      · rintro rfl
        simp
      · rintro rfl
        simp
    · rw [update_of_ne hw]
      apply (h.task i w hi).bystander hx
      · rintro rfl
        have hop : op ≠ .CHANSND := fun hop => hother hi hw (hdue.place_send hop).symm
        simp [hop]
      · rintro rfl
        have hop : op ≠ .CHANRCV := fun hop => hother hi hw (hdue.place_recv hop).symm
        simp [hop]
      · intro v hv
        by_cases hop : op = .CHANRCV
        · rw [if_pos hop] at hv
          cases hv
          exact S.val_apart t w (Ne.symm hw)
        · rw [if_neg hop] at hv
          cases hv
      · rw [hu.blocked w hw]
        simp
      · exact hu.alts w hw _
  | @pair u q z w hctl hut hb hz hzop hx hu =>
    rw [hsize] at hx
    obtain ⟨rfl, hzo, hzv⟩ := hzop
    obtain ⟨j, hj, hv, hd⟩ := h.waiting hb hz (hzo ▸ hdue.queued.otherop)
    obtain rfl : w = S.val u := Option.some.inj (hzv.symm.trans hv)
    rw [hzo] at hd
    apply h.exchange ht hreach (by simp [hctl.1]) hx hu hlt (.inl hctl.symm)
    have hends : ∀ {i v}, ts[i]? = some v → v ≠ t → v ≠ u → i ≠ z.c ∧ i ≠ z.c + 1 := by
      intro i v hi hvt hvu
      have hit := hother hi hvt
      have hij : i ≠ j := by
        rintro rfl
        exact hvu (Option.some.inj (hi.symm.trans hj))
      rcases hdue.queued with rfl | rfl
      · have := hdue.place_send rfl
        have := hd.place_recv rfl
        omega
      · have := hdue.place_recv rfl
        have := hd.place_send rfl
        omega
    intro i v hi
    by_cases hvt : v = t
    · subst hvt
      obtain rfl := h.place_unique hk hi
      rw [update_self]
      apply Stands.rests fun hb => hb.2.1 hctl.2
      apply hdue.complete hx
      · rintro rfl
        simpa using S.val_apart u v hut
      · rintro rfl
        simp
    · rw [update_of_ne hvt]
      by_cases hvu : v = u
      · subst hvu
        obtain rfl := h.place_unique hj hi
        apply Stands.rests fun hb => ((hu.blocked v hvt _).mp hb).2 rfl
        apply hd.complete hx
        · intro hop
          obtain rfl : op = .CHANRCV := by
            rcases hdue.queued with rfl | rfl
            · cases hop
            · rfl
          simpa using S.val_apart t v (Ne.symm hvt)
        · intro hop
          obtain rfl : op = .CHANSND := by
            rcases hdue.queued with rfl | rfl
            · rfl
            · cases hop
          simp
      · have hne := hends hi hvt hvu
        apply (h.task i v hi).bystander hx (fun he => absurd he hne.1) (fun he => absurd he hne.2)
        · intro w hw
          cases hw
          split
          · exact S.val_apart t v (Ne.symm hvt)
          · exact S.val_apart u v (Ne.symm hvu)
        · rw [hu.blocked v hvt]
          simp [hvu]
        · exact hu.alts v hvt _

end Step

section Quiet
variable {S : Setup} {st : State} {ts : List TaskPtr} {s s' sys' : Sys Links} {k n c : ℕ}
  {t u : TaskPtr} {pc : Pc} {new : List Event}

/-- What is neither a transfer nor a call of `chanalt` does not show on any channel. -/
theorem transferred_aside (hlog : s'.log = new ++ s.log) (hnew : ∀ e ∈ new, e.aside) (c : ℕ) :
    sentOn c s' = sentOn c s ∧ received c s' = received c s := by
  have hnil : new.filterMap (chanEvent c) = [] := by
    apply List.filterMap_eq_nil_iff.mpr
    intro e he
    have haside := hnew e he
    cases e with
    | chan => cases haside
    | _ => rfl
  rw [sentOn_append hlog, received_append hlog, hnil]
  simp [hist]

/-- Nor does it end the wait of a task. -/
theorem altBlocked_aside {base : ℕ} (hlog : s'.log = new ++ s.log) (hnew : ∀ e ∈ new, e.aside)
    (hl : t ∈ s'.live ↔ t ∈ s.live) (hc : (s'.task t).context = (s.task t).context)
    (hr : AltBlocked s t base → s'.taskrunning ≠ some t)
    (hr' : s.taskrunning = some t → s'.taskrunning = some t) :
    AltBlocked s' t base ↔ AltBlocked s t base := by
  have hnone : new.filterMap (transferOf base) = [] := by
    apply List.filterMap_eq_nil_iff.mpr
    intro e he
    have haside := hnew e he
    cases e with
    | chan => cases haside
    | _ => rfl
  have hcall : .altcall t base ∉ new := fun hin => hnew _ hin
  constructor
  · intro hb
    have hold : s.taskrunning ≠ some t := fun hrun => hb.2.1 (hr' hrun)
    exact ((altBlocked_iff_of_log hl hold hb.2.1 hc hlog hcall).mp hb).1
  · intro hb
    exact (altBlocked_iff_of_log hl hb.2.1 (hr hb) hc hlog hcall).mpr ⟨hb, hnone⟩

theorem places_aside (hlog : s'.log = new ++ s.log) (hnew : ∀ e ∈ new, e.aside) (k : ℕ) :
    rcvdBy k s' = rcvdBy k s ∧ sentBy k s' = sentBy k s := by
  refine ⟨?_, by rw [sentBy, sentBy, (transferred_aside hlog hnew k).1]⟩
  cases k with
  | zero => rfl
  | succ c => rw [rcvdBy, rcvdBy, (transferred_aside hlog hnew c).2]

/-- What a step without a transfer leaves as it is. -/
structure Calm (S : Setup) (s s' : Sys Links) : Prop where
  log : ∃ new, (∀ e ∈ new, e.aside) ∧ s'.log = new ++ s.log
  chan : s'.chan = s.chan
  alts : s'.alts = s.alts
  live : s'.live = s.live
  keep : ∀ t, (s'.task t).context = (s.task t).context ∧
    (s'.task t).startfn = (s.task t).startfn ∧ (s'.task t).system = (s.task t).system
  user : ∀ t, s.taskrunning = some t → s.control = .user →
    s'.taskrunning = some t ∧ s'.control = .user
  blocked : ∀ t, AltBlocked s' t (S.alts t) ↔ AltBlocked s t (S.alts t)

/-- A task that a step without a transfer does not concern. -/
theorem Stands.aside (h : Stands S s k n t pc) (hlog : s'.log = new ++ s.log)
    (hnew : ∀ e ∈ new, e.aside) (halts : s'.alts = s.alts)
    (hword : s'.word (S.val t) = s.word (S.val t))
    (hb : AltBlocked s' t (S.alts t) ↔ AltBlocked s t (S.alts t)) : Stands S s' k n t pc := by
  obtain ⟨hR, hX⟩ := places_aside hlog hnew k
  cases h with
  | rests hb' h =>
    apply Stands.rests (mt hb.mp hb')
    rwa [hR, hX, hword]
  | waits hb' ha he hv h =>
    apply Stands.waits (hb.mpr hb') ((congrFun halts _).trans ha) he hv
    rwa [hR, hX, hword]

/-- The program goes on after a step without a transfer, which changes the variable of `t` at
most. -/
theorem Sieving.calm {pc' : Pc} (h : Sieving S st ts) (hcalm : Calm S st.sys sys')
    (hreach : Reachable sys') (hgo : ∀ v, sys'.control ≠ .halted v)
    (hword : ∀ u ≠ t, sys'.word (S.val u) = st.sys.word (S.val u))
    (hself : ∀ k, ts[k]? = some t → Stands S sys' k ts.length t pc') :
    Sieving S { st with sys := sys', pc := update st.pc t pc' } ts := by
  obtain ⟨new, hnew, hlog⟩ := hcalm.log
  apply h.advance hreach hgo
  case hfresh =>
    intro c hc
    obtain ⟨hs, hr⟩ := transferred_aside hlog hnew c
    rw [hs, hr]
    exact h.fresh c hc
  case hext =>
    intro c
    rw [(transferred_aside hlog hnew c).2]
  case hlive => exact hcalm.live
  case hsize =>
    rw [hcalm.chan]
    exact fun c => ⟨rfl, rfl⟩
  case hkind => exact fun u => (hcalm.keep u).2
  case hcontext =>
    intro u hu
    rw [(hcalm.keep u).1]
    exact (h.context u hu).imp_left fun hrun => hcalm.user u hrun.1 hrun.2
  case htask =>
    intro k u hk
    by_cases hu : u = t
    · subst hu
      rw [update_self]
      exact hself k hk
    · rw [update_of_ne hu]
      exact (h.task k u hk).aside hlog hnew hcalm.alts (hword u hu) (hcalm.blocked u)

theorem Sieving.still (h : Sieving S st ts) (hcalm : Calm S st.sys sys')
    (hreach : Reachable sys') (hgo : ∀ v, sys'.control ≠ .halted v)
    (hmem : sys'.mem = st.sys.mem) : Sieving S { st with sys := sys' } ts := by
  obtain ⟨new, hnew, hlog⟩ := hcalm.log
  have hword : ∀ u, sys'.word (S.val u) = st.sys.word (S.val u) := fun u => by
    rw [Sys.word, hmem, Sys.word]
  have hcalm' : Sieving S { st with sys := sys', pc := update st.pc S.main (st.pc S.main) } ts :=
    h.calm hcalm hreach hgo (fun u _ => hword u) fun k hk =>
      (h.task k _ hk).aside hlog hnew hcalm.alts (hword _) (hcalm.blocked _)
  rwa [update_eq_self] at hcalm'

theorem Sieving.dispatch (h : Sieving S st ts) (hc : st.sys.control = .scheduler)
    (h0 : st.sys.taskcount ≠ 0) (hhead : head .taskrunqueue st.sys = some t) :
    Calm S st.sys (taskscheduler st.sys) ∧ (taskscheduler st.sys).control = .resume ∧
      (taskscheduler st.sys).mem = st.sys.mem := by
  obtain ⟨a, pl, _, hI, q, hrep, rfl⟩ := h.reach.sim
  have hqueued : pl t = some .runqueue := by
    apply hI.placed.mem_list.mp
    apply List.mem_of_mem_head?
    rw [Option.mem_def, ← hhead]
    exact (hrep.head _).symm
  have hnone : st.sys.taskrunning = none := hI.onCpu.scheduler hc
  have hpick : taskscheduler st.sys = { (deltask .taskrunqueue t st.sys).setTask t
      fun x => { x with ready := false } with
        taskrunning := some t
        tasknswitch := st.sys.tasknswitch + 1
        control := .resume
        log := .dispatch t :: st.sys.log } := by
    rw [taskscheduler, if_neg h0, hhead]
    rfl
  have hkeep : ∀ u, ((taskscheduler st.sys).task u).context = (st.sys.task u).context ∧
      ((taskscheduler st.sys).task u).startfn = (st.sys.task u).startfn ∧
        ((taskscheduler st.sys).task u).system = (st.sys.task u).system := by
    intro u
    rw [hpick]
    by_cases hu : u = t
    · subst hu
      simp [Sys.setTask, deltask]
    · simp [Sys.setTask, deltask, hu]
  have hlog : (taskscheduler st.sys).log = [.dispatch t] ++ st.sys.log := by rw [hpick]; rfl
  refine ⟨?_, by rw [hpick], by rw [hpick]; rfl⟩
  constructor
  case log => exact ⟨[.dispatch t], by simp [Event.aside], hlog⟩
  case chan => rw [hpick]; rfl
  case alts => rw [hpick]; rfl
  case live => rw [hpick]; rfl
  case keep => exact hkeep
  case user =>
    intro u hu
    rw [hnone] at hu
    cases hu
  case blocked =>
    intro u
    apply altBlocked_aside hlog (by simp [Event.aside]) (by rw [hpick]; rfl) (hkeep u).1
    · intro hb hrun
      rw [hpick] at hrun
      obtain rfl : t = u := Option.some.inj hrun
      have hpl := hI.altBlocked_iff.mp hb
      rw [hqueued] at hpl
      cases hpl
    · intro hu
      rw [hnone] at hu
      cases hu

theorem Sieving.resumed {e : Env} (h : Sieving S st ts) (ht : st.sys.taskrunning = some t)
    (hc : st.sys.control = .resume) (hs : step (e, .resume) st.sys = some sys') :
    Calm S st.sys sys' ∧ (sys'.control = .user ∧ sys'.taskrunning = some t) ∧
      sys'.mem = st.sys.mem := by
  have hreach := h.reach.snoc hs
  have hlive : t ∈ ts := (h.live t).mp (h.reach.running ht).1
  have hback : (∃ new, (∀ e ∈ new, e.aside) ∧
      sys' = { st.sys with control := .user, log := new ++ st.sys.log }) ∨
        sys'.control = .halted .fault := by
    rw [step_resume ht hs]
    unfold Libtask.resume
    rcases h.context t hlive with hrun | hx | hx
    · cases hc.symm.trans hrun.2
    · simp only [hx, (h.kind t hlive).1]
      exact .inl ⟨[], by simp, rfl⟩
    · simp only [hx, chanaltBack, bind, Except.bind, Sys.deref]
      split
      · rename_i hd
        split at hd
        · cases hd
        · cases hd
          exact .inr rfl
      · split
        · exact .inr rfl
        · exact .inl ⟨[.ret t _, .altret t _ _], by simp [Event.aside], rfl⟩
  have hnofault : sys'.control ≠ .halted .fault := by
    obtain ⟨a, pl, ha, hI, q, _, rfl⟩ := hreach.sim
    exact fun hv => ha.halted hv
  obtain ⟨new, hnew, rfl⟩ := hback.resolve_right hnofault
  refine ⟨?_, ⟨rfl, ht⟩, rfl⟩
  constructor
  case log => exact ⟨new, hnew, rfl⟩
  case chan => rfl
  case alts => rfl
  case live => rfl
  case keep => exact fun u => ⟨rfl, rfl, rfl⟩
  case user => exact fun u hu _ => ⟨hu, rfl⟩
  case blocked =>
    intro u
    exact altBlocked_aside rfl hnew Iff.rfl rfl (fun hb => hb.2.1) fun hu => hu

theorem ulong_ulongBytes {n : ℕ} (hn : n < 2 ^ 32) : ulong (ulongBytes n) = n := by
  simp only [ulong, ulongBytes, sizeofWord, List.range_succ, List.range_zero, List.nil_append,
    List.map_cons, List.map_nil, List.cons_append, List.foldr_cons,
    List.foldr_nil, UInt8.toNat_ofNat']
  omega

theorem write_calm {x : Input} {i : ℤ} (ht : st.sys.taskrunning = some t)
    (hs : step (x.env, .call (setVal S st t i)) st.sys = some sys') :
    Calm S st.sys sys' ∧ (sys'.control = .user ∧ sys'.taskrunning = some t) ∧
      ulong (sys'.word (S.val t)) = toUlong i ∧
        ∀ u ≠ t, sys'.word (S.val u) = st.sys.word (S.val u) := by
  have hs' : sys' = { st.sys with
      mem := writeBytes st.sys.mem (S.val t) (ulongBytes (toUlong i)), control := .user } :=
    step_call ht hs
  have hlog : sys'.log = [] ++ st.sys.log := by rw [hs', List.nil_append]
  have hrun : sys'.taskrunning = st.sys.taskrunning := by rw [hs']
  refine ⟨?_, ⟨by rw [hs'], hrun.trans ht⟩, ?_, fun u hu => ?_⟩
  · constructor
    case log => exact ⟨[], by simp, hlog⟩
    case chan => rw [hs']
    case alts => rw [hs']
    case live => rw [hs']
    case keep =>
      rw [hs']
      exact fun u => ⟨rfl, rfl, rfl⟩
    case user => exact fun u hu _ => ⟨hrun.trans hu, by rw [hs']⟩
    case blocked =>
      intro u
      apply altBlocked_aside hlog (by simp) (by rw [hs']) (by rw [hs'])
      · exact fun hb => hrun ▸ hb.2.1
      · exact fun hu => hrun.trans hu
  · have hself : sys'.word (S.val t) = ulongBytes (toUlong i) := by
      rw [hs', Sys.word]
      exact readBytes_writeBytes _ _ _
    rw [hself]
    apply ulong_ulongBytes
    unfold toUlong
    omega
  · unfold Sys.word readBytes
    apply List.map_congr_left
    intro j hj
    have := List.mem_range.mp hj
    have := S.val_apart t u (Ne.symm hu)
    rw [hs']
    apply writeBytes_out
    rw [show (ulongBytes (toUlong i)).length = sizeofWord by simp [ulongBytes]]
    omega

/-- A task sets its variable and goes on to where that takes it. -/
theorem Sieving.write {x : Input} {pc' : Pc} {i : ℤ} (h : Sieving S st ts)
    (ht : st.sys.taskrunning = some t) (hk : ts[k]? = some t)
    (hat : At k ts.length (rcvdBy k st.sys) (sentBy k st.sys) (toUlong i) pc')
    (hs : step (x.env, .call (setVal S st t i)) st.sys = some sys') :
    Sieving S { st with sys := sys', pc := update st.pc t pc' } ts := by
  obtain ⟨hcalm, ⟨hctl, hrun⟩, hw, hword⟩ := write_calm ht hs
  obtain ⟨new, hnew, hlog⟩ := hcalm.log
  apply h.calm hcalm (h.reach.snoc hs) (by simp [hctl]) hword
  intro j hj
  obtain rfl := h.place_unique hk hj
  obtain ⟨hR, hX⟩ := places_aside hlog hnew j
  apply Stands.rests fun hb => hb.2.1 hrun
  rwa [hR, hX, hw]

end Quiet

end Libtask.Primes
