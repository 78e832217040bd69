import Libtask.Refine.Primes
import Mathlib.Algebra.Group.Action.Defs
import Mathlib.Algebra.Order.BigOperators.Group.Finset

/-! The prime sieve prints the primes up to its goal, in order, and ends. -/
namespace Libtask.Primes
open Function Runs Sieve

section Run
variable {S : Setup} {st : State} {xs : List Input}

/-- The program as it starts, with its first task alone in the chain. -/
theorem Sieving.start (S : Setup) : Sieving S S.start [S.main] := by
  have hboot : S.program.boot = taskready S.main { S.program.globals with
      links := (S.program.globals.links.setNext S.main none).setPrev S.main none
      task := update S.program.globals.task S.main
        { context := .taskstart, alarmtime := 0, id := 1, exiting := false, alltaskslot := 0,
          system := false, ready := false, startfn := .user }
      live := {S.main}
      taskidgen := 1
      taskcount := 1
      alltaskcap := 64
      alltask := update S.program.globals.alltask 0 S.main
      nalltask := 1 } := by
    rw [Program.boot, taskcreate_eq .user S.program.taskmain_ne]
    rfl
  have hlog : S.program.boot.log = [.ready S.main] := by
    rw [hboot]
    rfl
  have htask : (S.program.boot.task S.main).context = .taskstart ∧
      (S.program.boot.task S.main).startfn = .user ∧
        (S.program.boot.task S.main).system = false := by
    rw [hboot, taskready_task]
    simp
  have hnone : ∀ c, sentOn c S.program.boot = [] ∧ received c S.program.boot = [] := by
    intro c
    rw [sentOn, received, hlog]
    exact ⟨rfl, rfl⟩
  constructor
  case reach => exact Reach.of_init ⟨S.program, rfl⟩
  case going =>
    show ∀ v, S.program.boot.control ≠ .halted v
    rw [hboot]
    simp [taskready, addtask, Sys.emit, Sys.setTask, Program.globals]
  case nodup => exact List.nodup_singleton _
  case live =>
    show ∀ t, t ∈ S.program.boot.live ↔ _
    rw [hboot]
    simp [taskready, addtask, Sys.emit, Sys.setTask]
  case nchan => rfl
  case fresh => exact fun c _ => hnone c
  case size =>
    show ∀ c, (S.program.boot.chan c).elemsize = _ ∧ (S.program.boot.chan c).bufsize = _
    rw [hboot]
    exact fun c => ⟨rfl, rfl⟩
  case kind =>
    intro t ht
    rw [List.mem_singleton.mp ht]
    exact htask.2
  case context =>
    intro t ht
    rw [List.mem_singleton.mp ht]
    exact .inr (.inl htask.1)
  case task =>
    intro k t hk
    obtain ⟨hlt, hget⟩ := List.getElem?_eq_some_iff.mp hk
    obtain rfl : k = 0 := by simpa using hlt
    obtain rfl : S.main = t := hget
    apply Stands.rests
    · intro hb
      cases htask.1.symm.trans hb.2.2.1
    · refine ⟨⟨rfl, rfl⟩, ?_⟩
      show sentBy 0 S.program.boot = []
      rw [sentBy, (hnone 0).1]
      rfl
  case printed =>
    refine ⟨[], rfl, by simp [Heads], ⟨0, rfl⟩, by simp, ?_⟩
    cases S.quiet <;> rfl

theorem turn_halted {v : Halt} {x : Input} (hv : st.sys.control = .halted v) :
    turn S x st = none := by
  unfold turn
  rw [hv]

theorem Ended.halted {x : Input} {st₀ : State} (h : Ended S x st₀ st) :
    ∃ v, st.sys.control = .halted v := by
  cases h with
  | done hc | nochan hc | notask hc | overflow hc => exact ⟨_, hc⟩

/-- A run goes on, or its last step has ended it. -/
theorem Sieving.runs {st₀ : State} {ts : List TaskPtr} (h : Sieving S st₀ ts)
    (hx : exec (Primes.turn S) xs st₀ = some st) :
    (∃ ts', Sieving S st ts' ∧ work S st₀ + xs.length ≤ work S st) ∨
      ∃ x st₁ ts₁, xs.getLast? = some x ∧ Sieving S st₁ ts₁ ∧
        work S st₀ + xs.length ≤ work S st₁ + 1 ∧ Ended S x st₁ st := by
  induction xs generalizing st₀ ts with
  | nil =>
    obtain rfl := Option.some.inj hx
    exact .inl ⟨ts, h, le_rfl⟩
  | cons x xs ih =>
    obtain ⟨st₁, hturn, hrest⟩ := Option.bind_eq_some_iff.mp hx
    rcases h.turn hturn with ⟨ts₁, h₁, hwork⟩ | hend
    · rcases ih h₁ hrest with ⟨ts', h', hle⟩ | ⟨y, st₂, ts₂, hy, h₂, hle, hend⟩
      · refine .inl ⟨ts', h', ?_⟩
        rw [List.length_cons]
        omega
      · refine .inr ⟨y, st₂, ts₂, ?_, h₂, ?_, hend⟩
        · rw [List.getLast?_cons, hy]
          rfl
        · rw [List.length_cons]
          omega
    · obtain ⟨v, hv⟩ := hend.halted
      cases xs with
      | nil =>
        obtain rfl := Option.some.inj hrest
        exact .inr ⟨x, st₀, ts, rfl, h, le_rfl, hend⟩
      | cons y xs =>
        obtain ⟨_, hturn', _⟩ := Option.bind_eq_some_iff.mp hrest
        rw [turn_halted hv] at hturn'
        cases hturn'

/-- There is only so much to do before the numbers run out. -/
theorem Sieving.work_le {ts : List TaskPtr} (h : Sieving S st ts) :
    work S st ≤ 5 * ((2 ^ 31 + 1) * 2 ^ 32) + 5 * (2 ^ 31 + 2) + 4 := by
  obtain ⟨ps, hlen, hhead, hout⟩ := h.printed
  have hsent : ∀ c, (sentOn c st.sys).length + (received c st.sys).length ≤ 2 ^ 32 := by
    intro c
    obtain ⟨hs, hlt⟩ := h.sieved hlen hhead c
    have hle := length_le_of_pairwise hs.pairwise hlt
    have hle' := (h.rcvdBy_initial c).length_le
    rw [sentBy, List.length_map] at hle
    rw [rcvdBy, sentBy, List.length_map, List.length_map] at hle'
    omega
  have hps : ps.length ≤ 2 ^ 31 := by
    apply length_le_of_pairwise hout.first.pairwise
    intro p hp
    obtain ⟨k, hk⟩ := List.mem_iff_getElem?.mp hp
    obtain ⟨xs, hxs⟩ := hhead k p hk
    exact (h.number (k := k) (y := p) (by simp [hxs])).2.1
  have hn := h.nchan
  have hmoved : moved st.nchan st.sys ≤ (2 ^ 31 + 1) * 2 ^ 32 := by
    calc moved st.nchan st.sys ≤ (Finset.range st.nchan).card • 2 ^ 32 :=
          Finset.sum_le_card_nsmul _ _ _ fun c _ => hsent c
      _ = st.nchan * 2 ^ 32 := by rw [Finset.card_range, smul_eq_mul]
      _ ≤ (2 ^ 31 + 1) * 2 ^ 32 := Nat.mul_le_mul_right _ (by omega)
  have hwait : (waiters S st.sys).card ≤ 2 ^ 31 + 2 := by
    have hlive : waiters S st.sys ⊆ ts.toFinset := fun t ht =>
      List.mem_toFinset.mpr ((h.live t).mp (mem_waiters.mp ht).1)
    have hcard := Finset.card_le_card hlive
    rw [List.toFinset_card_of_nodup h.nodup] at hcard
    omega
  have hrank : rank st ≤ 4 := by
    unfold rank
    split
    · omega
    · exact (Pc.rank_bounds _).2
    · omega
  unfold work
  omega

end Run

section Overflow
variable {S : Setup} {st : State} {ts : List TaskPtr} {k n m w c : ℕ} {R X : List ℕ} {pc : Pc}
  {op : Op} {t : TaskPtr}

/-- A task holds back at most one prime beyond its own. -/
theorem At.lag (h : At (k + 1) n R X w pc)
    (hq : k + 2 < n → ∀ q xs, R = q :: xs → 2 ≤ q ∧ q ≤ m) : beyond m R ≤ beyond m X + 1 := by
  cases pc with
  | taskmain | put | sending =>
    obtain ⟨⟨hk, _⟩, _⟩ := h
    cases hk
  | primetask =>
    obtain ⟨_, rfl, _⟩ := h
    simp
  | first =>
    obtain ⟨_, rfl, _⟩ := h
    have hone : beyond m [w] ≤ 1 := beyond_le_length
    omega
  | loop =>
    obtain ⟨⟨_, _, hk⟩, q, xs, _, rfl, rfl⟩ := h
    obtain ⟨h2, hle⟩ := hq hk q xs rfl
    rw [beyond_cons_of_le hle, beyond_filter h2 hle]
    omega
  | got =>
    obtain ⟨⟨_, _, hk⟩, q, xs, _, rfl, rfl⟩ := h
    obtain ⟨h2, hle⟩ := hq hk q _ rfl
    have hone : beyond m [w] ≤ 1 := beyond_le_length
    rw [beyond_cons_of_le hle, beyond_filter h2 hle, beyond_append]
    omega
  | pass =>
    obtain ⟨⟨_, _, hk⟩, q, xs, _, rfl, rfl, _⟩ := h
    obtain ⟨h2, hle⟩ := hq hk q _ rfl
    have hone : beyond m [w] ≤ 1 := beyond_le_length
    rw [beyond_cons_of_le hle, beyond_filter h2 hle, beyond_append]
    omega

theorem Due.lag (h : Due (k + 1) n R X w pc c op)
    (hq : k + 2 < n → ∀ q xs, R = q :: xs → 2 ≤ q ∧ q ≤ m) : beyond m R ≤ beyond m X + 2 := by
  rcases h with ⟨_, _, h⟩ | ⟨_, _, h⟩
  · have hlag := h.lag hq
    have hone : beyond m [w] ≤ 1 := beyond_le_length
    rw [beyond_append] at hlag
    omega
  · cases R with
    | nil => simp
    | cons r R =>
      have hlag := (h 0).lag (m := m) fun hk q xs hR => by
        obtain ⟨rfl, _⟩ := List.cons.inj hR
        exact hq hk r R rfl
      rw [beyond_append] at hlag
      omega

/-- The chain holds back at most so many primes beyond the goal from each task on. -/
theorem Sieving.held_back (h : Sieving S st ts) (k : ℕ) (hk : k + 1 ≤ ts.length) :
    beyond S.goal.toNat (sentBy (ts.length - 1 - k) st.sys) ≤ k * (S.buffer + 2) := by
  obtain ⟨ps, hlen, hhead, hout⟩ := h.printed
  induction k with
  | zero =>
    have hn := h.nchan
    rw [Nat.sub_zero, sentBy, (h.fresh (ts.length - 1) (by omega)).1]
    simp
  | succ k ih =>
    have hrest := ih (by omega)
    obtain ⟨j, hj⟩ : ∃ j, ts.length - 1 - k = j + 1 := ⟨ts.length - 1 - (k + 1), by omega⟩
    rw [hj] at hrest
    rw [show ts.length - 1 - (k + 1) = j by omega]
    obtain ⟨held, hheld, hbuffer⟩ := h.channel j
    have hle : beyond S.goal.toNat held ≤ held.length := beyond_le_length
    have hlag : beyond S.goal.toNat (rcvdBy (j + 1) st.sys) ≤
        beyond S.goal.toNat (sentBy (j + 1) st.sys) + 2 := by
      have hlt : j + 1 < ts.length := by omega
      have hq : j + 2 < ts.length → ∀ q xs, rcvdBy (j + 1) st.sys = q :: xs →
          2 ≤ q ∧ q ≤ S.goal.toNat := by
        intro hj2 q xs hR
        obtain ⟨p, hp⟩ : ∃ p, ps[j]? = some p := ⟨_, List.getElem?_eq_getElem (by omega)⟩
        obtain ⟨ys, hys⟩ := hhead j p hp
        obtain ⟨rfl, _⟩ := List.cons.inj (hR.symm.trans hys)
        have := hout.le_goal q (List.mem_of_getElem? hp)
        exact ⟨(h.number (k := j) (y := q) (by simp [hR])).1, by omega⟩
      cases h.task (j + 1) _ (List.getElem?_eq_getElem hlt) with
      | rests _ hat =>
        have := hat.lag hq
        omega
      | waits _ _ _ _ hdue => exact hdue.lag hq
    rw [hheld, beyond_append, Nat.succ_mul]
    omega

/-- `i` overflows only if the chain can hold all the primes beyond the goal that an `int` can be. -/
theorem Sieving.overflow (h : Sieving S st ts) (ht : st.sys.taskrunning = some t)
    (hpc : st.pc t = .put 0 (2 ^ 31)) : (primesBelow (2 ^ 31)).length ≤
      (primesBelow (S.goal.toNat + 1)).length +
        ((primesBelow (S.goal.toNat + 1)).length + 1) * (S.buffer + 2) := by
  obtain ⟨k, hk, hat⟩ := h.running ht
  rw [hpc] at hat
  obtain ⟨⟨rfl, _, hlen⟩, hX, hi, _⟩ := hat
  have hall : 2 ^ 31 = 2 + (sentBy 0 st.sys).length := by omega
  obtain ⟨ps, hps, _, hout⟩ := h.printed
  have hle : ∀ q ∈ ps, q ≤ S.goal.toNat := by
    intro q hq
    have := hout.le_goal q hq
    omega
  have hcount := (hout.first.isPrefix hle).length_le
  have hheld := h.held_back (ts.length - 1) (by omega)
  rw [Nat.sub_self, hX] at hheld
  have hbound : (ts.length - 1) * (S.buffer + 2) ≤
      ((primesBelow (S.goal.toNat + 1)).length + 1) * (S.buffer + 2) :=
    Nat.mul_le_mul_right _ (by omega)
  calc (primesBelow (2 ^ 31)).length
      = (primesBelow (2 + (sentBy 0 st.sys).length)).length := by rw [hall]
    _ ≤ (primesBelow (S.goal.toNat + 1)).length +
        beyond S.goal.toNat (List.range' 2 (sentBy 0 st.sys).length) := length_primesBelow_le _ _
    _ ≤ _ := Nat.add_le_add_left (hheld.trans hbound) _

end Overflow

section Progress
variable {S : Setup} {st : State} {ts : List TaskPtr} {x : Input} {k : ℕ} {t : TaskPtr}

/-- What `malloc` may return. -/
def Input.Sound (x : Input) (st : State) : Prop :=
  x.env.malloc = 0 ∨ x.env.malloc % 4 = 0 ∧ x.env.malloc ∉ st.sys.live

theorem Sieving.user_progress (h : Sieving S st ts) (hx : x.Sound st)
    (ht : st.sys.taskrunning = some t) (hc : st.sys.control = .user) :
    ∃ st', Primes.user S x t st = some st' := by
  obtain ⟨k, hk, hat⟩ := h.running ht
  have hgoes := h.goes (x := x) hat
  have hcall : ∀ c, Admits st.sys x.env (.call c) →
      ∃ sys', step (x.env, .call c) st.sys = some sys' :=
    fun c hadm => ⟨_, step_of_call ht hc hadm⟩
  unfold Primes.user
  generalize next S x.junk t st = nx at hgoes ⊢
  cases hgoes with
  | @transfers c op _ hdue =>
    have hadm : Admits st.sys x.env
        (.call (chanop (S.alts t) c op (some (S.val t)) true x.junk)) :=
      ⟨hx, ⟨_, List.mem_cons_of_mem _ (List.mem_singleton_self _), rfl⟩,
        (h.calling ht hc hk hdue).unused⟩
    obtain ⟨sys', hs⟩ := hcall _ hadm
    exact ⟨_, Option.map_eq_some_iff.mpr ⟨sys', hs, rfl⟩⟩
  | @sets i =>
    obtain ⟨sys', hs⟩ := hcall (setVal S st t i) ⟨hx, trivial⟩
    exact ⟨_, Option.map_eq_some_iff.mpr ⟨sys', hs, rfl⟩⟩
  | creates =>
    cases x.chanmem with
    | true =>
      obtain ⟨sys', hs⟩ := hcall (.taskcreate .user) ⟨hx, trivial⟩
      exact ⟨_, Option.map_eq_some_iff.mpr ⟨sys', hs, rfl⟩⟩
    | false =>
      obtain ⟨sys', hs⟩ := hcall (.taskexitall 1) ⟨hx, trivial⟩
      exact ⟨_, Option.map_eq_some_iff.mpr ⟨sys', hs, rfl⟩⟩
  | ends =>
    obtain ⟨sys', hs⟩ := hcall (.taskexitall 0) ⟨hx, trivial⟩
    exact ⟨_, Option.map_eq_some_iff.mpr ⟨sys', hs, rfl⟩⟩
  | overflows => exact ⟨_, rfl⟩

theorem Sieving.progress (h : Sieving S st ts) (hx : x.Sound st) :
    ∃ st', Primes.turn S x st = some st' := by
  obtain ⟨a, pl, _, hI, q, _, rfl⟩ := h.reach.sim
  unfold Primes.turn
  cases hc : st.sys.control with
  | scheduler =>
    refine ⟨{ st with sys := taskscheduler st.sys }, ?_⟩
    have hadm : Admits st.sys x.env .schedule := ⟨hx, trivial⟩
    simp only [step, if_pos hadm, hc, Option.map_some]
  | resume =>
    obtain ⟨t, hp⟩ := hI.onCpu.resume hc
    have ht : st.sys.taskrunning = some t := (hI.onCpu.running t).mpr ⟨_, hp, .inr rfl⟩
    refine ⟨{ st with sys := finish t st.sys (resume x.env t st.sys) }, ?_⟩
    have hadm : Admits st.sys x.env .resume := ⟨hx, trivial⟩
    simp only [step, if_pos hadm, hc, ht, Option.map_some]
  | user =>
    obtain ⟨t, hp⟩ := hI.onCpu.user hc
    have ht : st.sys.taskrunning = some t := (hI.onCpu.running t).mpr ⟨_, hp, .inl rfl⟩
    simp only [ht]
    exact h.user_progress hx ht hc
  | halted v => exact absurd hc (h.going v)

end Progress

/-- Why the program ended with its step on `x`. -/
inductive Stops (S : Setup) (x : Input) (st : State) : Halt → Prop
  | done (hprinted : st.printed = S.primes) : Stops S x st (.exit 0)
  | nochan (hmem : x.chanmem = false) : Stops S x st (.exit 1)
  | notask (hmem : x.env.malloc = 0) : Stops S x st (.abort .taskallocMalloc)
  | overflow (hroom : (primesBelow (2 ^ 31)).length ≤ (primesBelow (S.goal.toNat + 1)).length +
      ((primesBelow (S.goal.toNat + 1)).length + 1) * (S.buffer + 2)) : Stops S x st .fault

/-- In every run the sieve prints the primes in order, none beyond its goal; when it ends with
status 0 it has printed them all; and else it ends only for want of memory, or because the channels
have room for more primes than an `int` can be. In particular it never comes to a deadlock. -/
theorem sieve_prints_primes {S : Setup} {xs : List Input} {st : State}
    (h : exec (turn S) xs S.start = some st) : st.printed <+: S.primes ∧
      ∀ v, st.sys.control = .halted v → ∃ x, xs.getLast? = some x ∧ Stops S x st v := by
  rcases (Sieving.start S).runs h with ⟨ts, hs, _⟩ | ⟨x, st₁, ts, hlast, hs, _, hend⟩
  · exact ⟨hs.out, fun v hv => absurd hv (hs.going v)⟩
  · have hctl : ∀ {w v}, st.sys.control = .halted w → st.sys.control = .halted v → w = v :=
      fun hw hv => Control.halted.inj (hw.symm.trans hv)
    cases hend with
    | done hc hprinted =>
      refine ⟨hprinted ▸ List.prefix_rfl, fun v hv => ⟨x, hlast, ?_⟩⟩
      rw [← hctl hc hv]
      exact .done hprinted
    | nochan hc hmem hprinted =>
      refine ⟨hprinted, fun v hv => ⟨x, hlast, ?_⟩⟩
      rw [← hctl hc hv]
      exact .nochan hmem
    | notask hc hmem hprinted =>
      refine ⟨hprinted, fun v hv => ⟨x, hlast, ?_⟩⟩
      rw [← hctl hc hv]
      exact .notask hmem
    | overflow hc ht hpc hprinted =>
      refine ⟨hprinted, fun v hv => ⟨x, hlast, ?_⟩⟩
      rw [← hctl hc hv]
      exact .overflow (hs.overflow ht hpc)

theorem words_apart {i j : ℕ} (h : i ≠ j) :
    4 * i + sizeofWord ≤ 4 * j ∨ 4 * j + sizeofWord ≤ 4 * i := by
  unfold sizeofWord
  omega

/-- The sieve up to 2, on unbuffered channels. -/
def Setup.small : Setup where
  goal := 2
  buffer := 0
  quiet := false
  val t := 4 * t.toNat
  alts t := t.toNat
  main := 4096
  mem _ := 0
  chanbuf _ _ := 0
  val_apart _ _ h := words_apart fun he => h (UInt32.toNat_inj.mp he)
  alts_inj t u h := UInt32.toNat_inj.mp h
  main_ne := Program.small.taskmain_ne
  main_aligned := Program.small.taskmain_aligned
  buffer_fits := by decide

/-- So many steps with memory for whatever is created. -/
def plenty (n : ℕ) : List Input := (List.range n).map fun i =>
  { env := .still (UInt32.ofNat (8192 + 4096 * i))
    junk := { c := 0, v := none, op := .CHANNOP, task := 0, xalt := ⟨0, 0⟩ }
    chanmem := true }

theorem sieve_prints_primes_small : ∃ st, exec (turn Setup.small) (plenty 28) Setup.small.start =
    some st ∧ st.sys.control = .halted (.exit 0) ∧ st.printed = [2] ∧
    st.printed <+: Setup.small.primes ∧
      ∀ v, st.sys.control = .halted v →
        ∃ x, (plenty 28).getLast? = some x ∧ Stops Setup.small x st v := by
  have hrun : (exec (turn Setup.small) (plenty 28) Setup.small.start).map
      (fun st => (st.sys.control, st.printed)) = some (.halted (.exit 0), [2]) := by
    decide +kernel
  obtain ⟨st, hst, hout⟩ := Option.map_eq_some_iff.mp hrun
  obtain ⟨hctl, hprinted⟩ := Prod.mk.inj hout
  exact ⟨st, hst, hctl, hprinted, sieve_prints_primes hst⟩

/-- The sieve ends: no run has more than so many steps, and one that has not ended goes on whatever
comes from outside. -/
theorem sieve_ends {S : Setup} {xs : List Input} {st : State}
    (h : exec (turn S) xs S.start = some st) : xs.length ≤ 2 ^ 67 ∧
      ((∃ v, st.sys.control = .halted v) ∨
        ∀ x : Input, x.Sound st → ∃ st', turn S x st = some st') := by
  rcases (Sieving.start S).runs h with ⟨ts, hs, hle⟩ | ⟨x, st₁, ts, _, hs, hle, hend⟩
  · have hwork := hs.work_le
    exact ⟨by omega, .inr fun x hx => hs.progress hx⟩
  · have hwork := hs.work_le
    exact ⟨by omega, .inl hend.halted⟩

theorem sieve_ends_small : ∃ st, exec (turn Setup.small) (plenty 12) Setup.small.start = some st ∧
    (plenty 12).length ≤ 2 ^ 67 ∧ ((∃ v, st.sys.control = .halted v) ∨
      ∀ x : Input, x.Sound st → ∃ st', turn Setup.small x st = some st') := by
  have hrun : (exec (turn Setup.small) (plenty 12) Setup.small.start).isSome := by decide +kernel
  obtain ⟨st, hst⟩ := Option.isSome_iff_exists.mp hrun
  exact ⟨st, hst, sieve_ends hst⟩

end Libtask.Primes
