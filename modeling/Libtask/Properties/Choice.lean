import Libtask.ChannelFrame
import Libtask.Properties.AltCommit

/-! Choice in `chanalt`: the two scans of the array agree, the random number picks among the
branches that can be executed on entry, and the queues are left for when there is none. -/
namespace Libtask
open Function Runs

variable {σ : Type}

/-- The branches among the first `n` of the array `base` that `altcanexec` accepts. -/
def executable (base : ℕ) (s : Sys σ) (n : ℕ) : List ℕ :=
  (List.range n).filter fun i => altcanexec s ⟨base, i⟩

/-- The state in which `as` has been stored in the memory object `base`. -/
def Sys.store (base : ℕ) (as : List Alt) (s : Sys σ) : Sys σ :=
  { s with alts := update s.alts base as }

section Scan
variable {s : Sys σ} {base n i j rand : ℕ} {as : List Alt} {t : TaskPtr}

theorem mem_executable : i ∈ executable base s n ↔ i < n ∧ altcanexec s ⟨base, i⟩ = true := by
  rw [executable, List.mem_filter, List.mem_range]

theorem altncan_eq : altncan base s n = (executable base s n).length := by
  rw [altncan, executable, List.countP_eq_length_filter]

/-- The selection loop skips `j` branches that can be executed and takes the next one. -/
theorem altselect_eq (is : List ℕ) :
    altselect base s j is = (is.filter fun i => altcanexec s ⟨base, i⟩)[j]? := by
  induction is generalizing j with
  | nil => rfl
  | cons i is ih =>
    unfold altselect
    by_cases hi : altcanexec s ⟨base, i⟩
    · rw [if_pos hi, List.filter_cons_of_pos (p := fun i => altcanexec s ⟨base, i⟩) hi]
      cases j with
      | zero => rfl
      | succ j => simpa using ih
    · rw [if_neg hi, List.filter_cons_of_neg (p := fun i => altcanexec s ⟨base, i⟩) hi]
      exact ih

/-- Counting and selecting together index into the branches that can be executed. -/
theorem altpick_eq : altpick base s n rand =
    (executable base s n)[rand % (executable base s n).length]? := by
  unfold altpick
  rw [altncan_eq]
  split
  · exact altselect_eq _
  · have hnil : executable base s n = [] := List.eq_nil_of_length_eq_zero (not_not.mp ‹_›)
    rw [hnil, List.getElem?_nil]

theorem altpick_ne_none (rand : ℕ) (h : executable base s n ≠ []) :
    ∃ i, altpick base s n rand = some i := by
  have hpos : 0 < (executable base s n).length := List.length_pos_of_ne_nil h
  exact ⟨_, by rw [altpick_eq, List.getElem?_eq_getElem (Nat.mod_lt rand hpos)]⟩

theorem not_altcanexec_nop {p : AltPtr} {x : Alt} (hx : s.alt? p = some x) (hop : x.op = .CHANNOP) :
    altcanexec s p = false := by
  simp [altcanexec, hx, hop]

/-- `altcanexec` reads the channel and the direction of a branch, and no stamp. -/
theorem altcanexec_congr {s' : Sys σ} {p p' : AltPtr} (hchan : s'.chan = s.chan)
    (halt : (s'.alt? p').map (fun x => (x.c, x.op)) = (s.alt? p).map fun x => (x.c, x.op)) :
    altcanexec s' p' = altcanexec s p := by
  cases hx : s.alt? p with
  | none =>
    rw [hx, Option.map_none, Option.map_eq_none_iff] at halt
    simp only [altcanexec, hx, halt]
  | some x =>
    rw [hx, Option.map_some] at halt
    obtain ⟨y, hy, hyx⟩ := Option.map_eq_some_iff.mp halt
    obtain ⟨hc, hop⟩ := Prod.mk.inj hyx
    simp only [altcanexec, hx, hy, hchan, hc, hop]

/-- The stamping loop runs before the scans and does not change what they find. -/
theorem executable_altenter : executable base (s.altenter base as t) n =
    executable base (s.store base as) n := by
  unfold executable
  congr 1
  funext i
  apply altcanexec_congr
  · rfl
  · have hent : (s.altenter base as t).alts base = stamped base t as := by
      simp
    have hgiven : (s.store base as).alts base = as := update_self ..
    simp only [Sys.alt?, hent, hgiven, getElem?_stamped]
    split
    · rw [Option.map_map]
      rfl
    · rfl

end Scan

section Choice
variable {s : Sys Links} {t : TaskPtr} {base i : ℕ} {as : List Alt} {e : Env}

/-- The branches of `as` that can be executed when `chanalt` is called on it. -/
def executableOnEntry (s : Sys Links) (base : ℕ) (as : List Alt) : List ℕ :=
  executable base (s.store base as) (altlen as)

theorem altpick_entry : altpick base (s.altenter base as t) (altlen as) e.rand₁ =
    (executableOnEntry s base as)[e.rand₁ % (executableOnEntry s base as).length]? := by
  rw [altpick_eq, executable_altenter, executableOnEntry]

theorem call_chanalt_some (hi : altpick base (s.altenter base as t) (altlen as) e.rand₁ = some i) :
    call e (.chanalt base as) t s = (altexec ⟨base, i⟩ e.rand₂ (s.altenter base as t)).map fun s =>
      (s.emit (.altret t base i), .value i) := by
  rw [call, chanalt_eq, hi]

theorem call_chanalt_none (hi : altpick base (s.altenter base as t) (altlen as) e.rand₁ = none) :
    call e (.chanalt base as) t s = if (as[altlen as]?).any (·.op = .CHANEND) then
      (altqueueAll base (List.range (altlen as)) (s.altenter base as t)).map fun s =>
        (taskswitch (.chanalt base) t s, .switched)
      else .ok ((s.altenter base as t).emit (.altret t base (-1)), .value (-1)) := by
  rw [call, chanalt_eq, hi]

/-- A call that returns or blocks did so in one of two ways. -/
theorem call_chanalt_ok {s' : Sys Links} {v : Return}
    (h : call e (.chanalt base as) t s = .ok (s', v)) :
    (∃ i s₁, altpick base (s.altenter base as t) (altlen as) e.rand₁ = some i ∧
      altexec ⟨base, i⟩ e.rand₂ (s.altenter base as t) = .ok s₁ ∧
      s' = s₁.emit (.altret t base i) ∧ v = .value i) ∨
    altpick base (s.altenter base as t) (altlen as) e.rand₁ = none ∧
      (v = .switched ∨ v = .value (-1)) := by
  cases hi : altpick base (s.altenter base as t) (altlen as) e.rand₁ with
  | some i =>
    rw [call_chanalt_some hi] at h
    obtain ⟨s₁, hexec, heq⟩ := map_ok h
    cases heq
    exact .inl ⟨i, s₁, rfl, hexec, rfl, rfl⟩
  | none =>
    rw [call_chanalt_none hi] at h
    split at h
    · obtain ⟨s₁, _, heq⟩ := map_ok h
      cases heq
      exact .inr ⟨rfl, .inl rfl⟩
    · cases h
      exact .inr ⟨rfl, .inr rfl⟩

/-- In a run of the program the branch that is picked is executed to the end. -/
theorem Reachable.altrun (h : Reachable s) (hc : s.control = .user) (ht : s.taskrunning = some t)
    (has : AltArray s base as)
    (hi : altpick base (s.altenter base as t) (altlen as) e.rand₁ = some i) :
    ∃ s', call e (.chanalt base as) t s = .ok (s', .value i) ∧ transfers t base s'.log = [i] ∧
      ∀ c op, ∀ p ∈ (s'.chan c).arr op, p.base ≠ base := by
  obtain ⟨a, pl, _, hI, hsim⟩ := h.sim
  have hent := hsim.altenter base as t
  have hpick := (hsim.altpick_altenter base as t (altlen as) e.rand₁).trans hi
  obtain ⟨q, _, rfl⟩ := hsim
  have huser : (s.withLinks q).User t := ⟨ht, hc⟩
  have hbase : Inv.Unused (s.withLinks q) base := has.2
  obtain ⟨b, u, c, evs, pl', hok, hb, hIb, hu, htr⟩ := hI.altrun huser hbase hpick e.rand₂
  obtain ⟨s₁, hok₁, hs₁⟩ := hent.altexecMatch hok
  have hready : Sim (u.elim s₁ fun v => taskready v s₁) (b.readyOpt u) := by
    cases u with
    | none => exact hs₁
    | some v => exact hs₁.taskready hIb.placed.not_mem_of_ready
  obtain ⟨htrans, _⟩ := Inv.altrun_log hb hu
  obtain ⟨hlive, hrun, hctx⟩ := readyOpt_altenter hb u
  have hunused : Inv.Unused (b.readyOpt u) base := by
    intro v hl hr
    rw [hctx]
    exact hbase v (hlive ▸ hl) (hrun ▸ hr)
  obtain ⟨q', _, hq'⟩ := hready
  refine ⟨_, by rw [call_chanalt_some hi, altexec_eq hok₁]; rfl, ?_, ?_⟩
  · have hlog : (u.elim s₁ fun v => taskready v s₁).log = (b.readyOpt u).log := by rw [hq']; rfl
    show transfers t base (.altret t base i :: (u.elim s₁ fun v => taskready v s₁).log) = [i]
    rw [hlog, transfers, since_cons_ne (by simp), List.filterMap_cons_none rfl, ← htr]
    exact htrans
  · intro c' op p hp
    have hchan : (b.readyOpt u).chan = (u.elim s₁ fun v => taskready v s₁).chan := by rw [hq']; rfl
    have hp' : p ∈ ((b.readyOpt u).chan c').arr op := by
      rw [hchan]
      exact hp
    exact hIb.base_ne_of_unused hunused hp'

/-- What a call of `chanalt` chooses among the branches `E` that can be executed when it is made,
and when it goes on to wait. -/
structure ChoosesExecutable (s : Sys Links) (t : TaskPtr) (base : ℕ) (as : List Alt)
    (E : List ℕ) : Prop where
  executes : E ≠ [] → ∀ e, ∃ i, E[e.rand₁ % E.length]? = some i ∧
    call e (.chanalt base as) t s =
      (altexec ⟨base, i⟩ e.rand₂ (s.altenter base as t)).map fun s =>
        (s.emit (.altret t base i), .value i)
  stays : E ≠ [] → ∀ e s' v, call e (.chanalt base as) t s = .ok (s', v) → Serves s s'
  commits : Reachable s → s.control = .user → s.taskrunning = some t → AltArray s base as →
    E ≠ [] → ∀ e, ∃ i s', E[e.rand₁ % E.length]? = some i ∧
      call e (.chanalt base as) t s = .ok (s', .value i) ∧ transfers t base s'.log = [i] ∧
        ∀ c op, ∀ p ∈ (s'.chan c).arr op, p.base ≠ base
  chosen : ∀ i ∈ E, ∃ r < E.length, E[r % E.length]? = some i
  only : ∀ e s' (i : ℕ), call e (.chanalt base as) t s = .ok (s', .value i) → i ∈ E
  not_nop : ∀ i x, as[i]? = some x → x.op = .CHANNOP → i ∉ E
  waits : ∀ e s' v, call e (.chanalt base as) t s = .ok (s', v) →
    v = .switched ∨ v = .value (-1) → E = []

/-- Choice in `chanalt`: with `E` the branches that can be executed on entry, the random number
`r` picks `E[r % |E|]`, and only an empty `E` leads past the selection loop. -/
theorem chanalt_choice (s : Sys Links) (t : TaskPtr) (base : ℕ) (as : List Alt) :
    ChoosesExecutable s t base as (executableOnEntry s base as) := by
  have hpicked : executableOnEntry s base as ≠ [] → ∀ e : Env,
      ∃ i, altpick base (s.altenter base as t) (altlen as) e.rand₁ = some i := by
    intro hE e
    rw [executableOnEntry, ← executable_altenter (t := t)] at hE
    exact altpick_ne_none _ hE
  constructor
  case executes =>
    intro hE e
    obtain ⟨i, hi⟩ := hpicked hE e
    exact ⟨i, altpick_entry.symm.trans hi, call_chanalt_some hi⟩
  case stays =>
    intro hE e s' v hok
    rcases call_chanalt_ok hok with ⟨i, s₁, _, hexec, rfl, _⟩ | ⟨hnone, _⟩
    · have hserves := Serves.altexec hexec
      exact ⟨hserves.taskrunning, hserves.control, hserves.queued⟩
    · obtain ⟨i, hi⟩ := hpicked hE e
      rw [hnone] at hi
      cases hi
  case commits =>
    intro h hc ht has hE e
    obtain ⟨i, hi⟩ := hpicked hE e
    obtain ⟨s', hok, hrest⟩ := h.altrun hc ht has hi
    exact ⟨i, s', altpick_entry.symm.trans hi, hok, hrest⟩
  case chosen =>
    intro i hi
    obtain ⟨r, hr⟩ := List.getElem?_of_mem hi
    have hlt := (List.getElem?_eq_some_iff.mp hr).1
    exact ⟨r, hlt, by rw [Nat.mod_eq_of_lt hlt, hr]⟩
  case only =>
    intro e s' i hok
    rcases call_chanalt_ok hok with ⟨j, _, hj, _, _, hv⟩ | ⟨_, hv | hv⟩
    · simp only [Return.value.injEq] at hv
      obtain rfl : i = j := by omega
      rw [altpick_entry] at hj
      exact List.mem_of_getElem? hj
    · cases hv
    · simp only [Return.value.injEq] at hv
      omega
  case not_nop =>
    intro i x hx hop hi
    have hcan := (mem_executable.mp hi).2
    rw [not_altcanexec_nop (x := x) (by simp [Sys.alt?, Sys.store, hx]) hop] at hcan
    cases hcan
  case waits =>
    intro e s' v hok hv
    by_contra hE
    obtain ⟨i, hi⟩ := hpicked hE e
    rcases call_chanalt_ok hok with ⟨j, _, _, _, _, rfl⟩ | ⟨hnone, _⟩
    · simp at hv
    · rw [hi] at hnone
      cases hnone

/-- The first task of the small program, about to make a call. -/
def bootRun : List (Env × Action) := [(.still 0, .schedule), (.still 0, .resume)]

/-- A `CHANNOP`, a receive nobody answers, and two sends that there is room for. -/
def choiceArray : List Alt :=
  let branch (c : ℕ) (op : Op) : Alt := { c, v := none, op, task := 0, xalt := ⟨0, 0⟩ }
  [branch 0 .CHANNOP, branch 0 .CHANRCV, branch 0 .CHANSND, branch 1 .CHANSND, branch 0 .CHANEND]

theorem chanalt_choice_small : ∃ s, Program.small.after (fun _ _ => True) bootRun = some s ∧
    executableOnEntry s 0 choiceArray = [2, 3] ∧
    ChoosesExecutable s 4096 0 choiceArray (executableOnEntry s 0 choiceArray) := by
  have hrun : (Program.small.after (fun _ _ => True) bootRun).map
      (fun s => executableOnEntry s 0 choiceArray) = some [2, 3] := by decide
  obtain ⟨s, hs, hE⟩ := Option.map_eq_some_iff.mp hrun
  exact ⟨s, hs, hE, chanalt_choice s 4096 0 choiceArray⟩

end Choice
end Libtask
