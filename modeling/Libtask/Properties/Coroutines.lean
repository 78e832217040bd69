import Libtask.Coroutines
import Libtask.Properties.FirstEntry
import Libtask.Properties.Switching

/-! Any number of contexts share the processor and each goes on as if it had it alone. -/
namespace Libtask.Ucontext

open I386 ByteMemory Function Runs

section Taskalloc
variable {abi : Abi} {s : Machine} {t stack x : BitVec 32}

/-- Setting the fields of a task writes to its block only. -/
theorem taskFields_of_not_within (m : BitVec 32 → BitVec 8) (fn arg id : BitVec 32)
    (mask : ℕ → BitVec 8) (h : ¬ Within t abi.sizeofTask x) :
    taskFields abi m t fn arg stack id mask x = m x := by
  obtain ⟨hstk, hstksize, hstartfn, hstartarg, hend⟩ := abi.fields_eq
  have hsigset := abi.sigset_lt
  have hid : abi.id = Abi.context + abi.sizeofXucontext + 8 := rfl
  have hfield : ∀ i n, i + n ≤ abi.sizeofTask → ¬ Within (t + .ofNat 32 i) n x :=
    fun i n hi hx => h (hx.of_add hi)
  unfold taskFields
  rw [fill_of_not_within (hfield _ _ (by omega)), fill_of_not_within (hfield _ _ (by omega)),
    setLong_of_not_within (hfield _ _ (by omega)), setLong_of_not_within (hfield _ _ (by omega)),
    setLong_of_not_within (hfield _ _ (by omega)), setLong_of_not_within (hfield _ _ (by omega)),
    setLong_of_not_within (hfield _ _ (by omega)), fill_of_not_within h]

theorem uc_xmcontext_le (abi : Abi) : Abi.context + abi.uc_xmcontext + 80 ≤ abi.id := by
  unfold Abi.id Abi.sizeofXucontext Abi.uc_stack sizeofXmcontext
  omega

/-- Until it makes the context, `taskalloc` writes to the structure and pushes two words. -/
theorem taskallocInit_of_not_within {m : BitVec 32 → BitVec 8} (h : Allocated abi s t stack)
    {next fn arg id : BitVec 32} {mask : ℕ → BitVec 8}
    (hm : taskallocInit abi s next t fn arg stack id mask = some m)
    (hblock : ¬ Within t abi.sizeofTask x) (hpush : ¬ Within (s.reg .esp - 8) 8 x) :
    m x = s.mem x := by
  obtain ⟨-, -, -, -, hend⟩ := abi.fields_eq
  have hsp := abi.ss_sp_lt
  have hss := abi.ss_size_lt
  have hctx := uc_xmcontext_le abi
  have hfield : ∀ i n, i + n ≤ abi.sizeofTask → ¬ Within (t + .ofNat 32 i) n x :=
    fun i n hi hx => hblock (hx.of_add hi)
  have hap : Apart (s.reg .esp - 8) 8
      (t + .ofNat 32 Abi.context + .ofNat 32 abi.uc_xmcontext) 80 := by
    rw [add_ofNat_add]
    exact h.apart.add (by omega)
  obtain ⟨heax, hmem⟩ := getcontext_spec
    (s := { s with mem := taskFields abi s.mem t fn arg stack id mask }) next hap
  have hx := hmem x hpush (by
    rw [add_ofNat_add]
    exact hfield _ _ (by omega))
  unfold taskallocInit at hm
  simp only [heax] at hm
  rw [if_neg (by decide)] at hm
  cases hm
  rw [add_ofNat_add, add_ofNat_add, setLong_of_not_within (hfield _ _ (by omega)),
    setLong_of_not_within (hfield _ _ (by omega)), hx]
  exact taskFields_of_not_within s.mem fn arg id mask hblock

/-- A new task: its context enters `taskstart` with the address of the task, on its own stack, and
nothing outside of its block is written but the two words that are pushed. -/
structure Fresh (abi : Abi) (s : Machine) (t stack start : BitVec 32) (m : BitVec 32 → BitVec 8) :
    Prop where
  prepared : Prepared m (t + .ofNat 32 Abi.context + .ofNat 32 abi.uc_xmcontext) start
    (firstSp (t + .ofNat 32 abi.sizeofTask) stack) t (t >>> 16 >>> 16)
  frame : ∀ x, ¬ Within t (abi.sizeofTask + stack.toNat) x → ¬ Within (s.reg .esp - 8) 8 x →
    m x = s.mem x

theorem taskalloc_fresh {m : BitVec 32 → BitVec 8} (h : Allocated abi s t stack)
    (hstack : 128 ≤ stack.toNat) {next fn arg id start : BitVec 32} {mask : ℕ → BitVec 8}
    (hm : taskalloc abi s next t fn arg stack id start mask = some m) :
    Fresh abi s t stack start m := by
  have hfits := h.fits
  obtain ⟨-, -, -, -, hid⟩ := abi.fields_eq
  have hctx := uc_xmcontext_le abi
  have hend : (t + .ofNat 32 abi.sizeofTask).toNat + stack.toNat ≤ 2 ^ 32 := by
    rw [h.toNat_stk (by omega)]
    omega
  obtain ⟨m₀, hinit, hsp, hss⟩ := taskallocInit_spec h next fn arg id mask
  rw [← add_ofNat_add] at hsp hss
  obtain ⟨hprepared, hmem⟩ :=
    makecontext_spec hsp hss hstack hend h.context_apart start t (t >>> 16 >>> 16)
  unfold taskalloc at hm
  rw [hinit] at hm
  cases hm
  constructor
  case prepared => exact hprepared
  case frame =>
    intro x hblock hpush
    have hpart : ∀ i n, i + n ≤ abi.sizeofTask + stack.toNat → ¬ Within (t + .ofNat 32 i) n x :=
      fun i n hi hx => hblock (hx.of_add hi)
    have hstk : ¬ Within (firstSp (t + .ofNat 32 abi.sizeofTask) stack) 12 x := fun hx =>
      hpart _ _ (le_refl _) (within_of_firstSp hstack hend (within_push (by decide) hx))
    have hfield : ∀ i, i + 4 ≤ 80 →
        ¬ Within (t + .ofNat 32 Abi.context + .ofNat 32 abi.uc_xmcontext + .ofNat 32 i) 4 x := by
      intro i hi
      rw [add_ofNat_add, add_ofNat_add]
      exact hpart _ _ (by omega)
    have htask : ¬ Within t abi.sizeofTask x := by
      have h0 : ¬ Within (t + 0#32) abi.sizeofTask x := hpart 0 _ (by omega)
      rwa [BitVec.add_zero] at h0
    exact (hmem x hstk (hfield _ (by decide)) (hfield _ (by decide))).trans
      (taskallocInit_of_not_within h hinit htask hpush)

theorem exists_taskalloc (h : Allocated abi s t stack) (next fn arg id start : BitVec 32)
    (mask : ℕ → BitVec 8) : ∃ m, taskalloc abi s next t fn arg stack id start mask = some m := by
  obtain ⟨m₀, hinit, -⟩ := taskallocInit_spec h next fn arg id mask
  exact Option.isSome_iff_exists.mp (by simp [taskalloc, hinit])

end Taskalloc

/-- The context of `t` is as `taskalloc` left it: on its stack there are the return address 0 and
the two halves of the address of the task. -/
structure Entry (A : Image) (t stack : BitVec 32) (q : Parked) : Prop where
  large : 128 ≤ stack.toNat
  fits : (A.stk (.task t stack)).toNat + stack.toNat ≤ 2 ^ 32
  eip : q.cpu.eip = A.taskstart
  esp : q.cpu.reg .esp = firstSp (A.stk (.task t stack)) stack
  prepared : Prepared q.mem (A.ctx (.task t stack)) A.taskstart (q.cpu.reg .esp) t (t >>> 16 >>> 16)

/-- In the memory `m` the thread `i` can go on as `q` says. -/
structure Kept (A : Image) (m : Memory) (i : Thread) (q : Parked) : Prop where
  holds : Holds m (A.ctx i) q.cpu
  own : ∀ x, A.Own i x → m x = q.mem x
  room : A.Room i (q.cpu.reg .esp) 4
  back : q.fresh = false → q.cpu.reg .eax = 1
  first : q.fresh = true → ∀ t stack, i = .task t stack → Entry A t stack q

/-- The threads share no byte, and those that are not on the processor can go on. -/
structure Threads.Inv (A : Image) (S : Threads) : Prop where
  current : S.parked S.current = none
  apart : ∀ i j, S.Exists i → S.Exists j → i ≠ j → ∀ x, A.Own i x → ¬A.Own j x
  inner : ∀ i, S.Exists i → Apart (A.ctx i) 80 (A.stk i) (A.stksize i)
  kept : ∀ i q, S.parked i = some q → Kept A S.machine.mem i q

section
variable {A : Image} {S : Threads} {m m' : Memory} {i j : Thread} {q : Parked} {e : Machine}
  {t stack next x : BitVec 32}

theorem Kept.congr (h : Kept A m i q) (hm : ∀ x, A.Own i x → m' x = m x) : Kept A m' i q where
  holds := h.holds.congr fun x hx => hm x (.inl hx.within)
  own x hx := (hm x hx).trans (h.own x hx)
  room := h.room
  back := h.back
  first := h.first

theorem Image.Room.own {n : ℕ} {esp : BitVec 32} (h : A.Room i esp n)
    (hx : Within (esp - .ofNat 32 n) n x) : A.Own i x := .inr (h x hx)

/-- Room below `esp` is room below a stack pointer that has gone down. -/
theorem Image.Room.below {n d k : ℕ} {esp : BitVec 32} (h : A.Room i esp n) (hle : d + k ≤ n) :
    A.Room i (esp - .ofNat 32 d) k := by
  intro x hx
  have hsplit : n = n - (d + k) + (d + k) := (Nat.sub_add_cancel hle).symm
  have heq : esp - .ofNat 32 d - .ofNat 32 k = esp - .ofNat 32 n + .ofNat 32 (n - (d + k)) := by
    have hn : BitVec.ofNat 32 n = .ofNat 32 (n - (d + k)) + (.ofNat 32 d + .ofNat 32 k) := by
      rw [← BitVec.ofNat_add, ← BitVec.ofNat_add, ← hsplit]
    rw [hn]
    bv_omega
  rw [heq] at hx
  exact h x (hx.of_add (by omega))

theorem Threads.Inv.ne_current (h : S.Inv A) (hi : S.parked i ≠ none) : i ≠ S.current := by
  rintro rfl
  exact hi h.current

/-- What the thread on the processor writes to its own bytes leaves the others alone. -/
theorem Threads.Inv.spares (h : S.Inv A)
    (hm : ∀ x, ¬A.Own S.current x → m' x = m x) : S.Spares A m m' := by
  intro i hi x hx
  exact hm x (h.apart i S.current (.inr hi) (.inl rfl) (h.ne_current hi) x hx)

/-- The registers below the fields of the structure are in the block. -/
theorem Image.own_block (A : Image) (hx : A.Own (.task t stack) x) :
    Within t (A.abi.sizeofTask + stack.toNat) x := by
  obtain ⟨-, -, -, -, hid⟩ := A.abi.fields_eq
  have hctx := uc_xmcontext_le A.abi
  rcases hx with hx | hx
  · have hx' : Within (t + .ofNat 32 (Abi.context + A.abi.uc_xmcontext)) 80 x := by
      rw [← add_ofNat_add]
      exact hx
    exact hx'.of_add (by omega)
  · exact Within.of_add hx (le_refl _)

theorem Image.own_ctx (A : Image) (i : Thread) : A.Own i (A.ctx i) := by
  left
  unfold Within
  simp

theorem Threads.Gets.new (h : S.Gets A t stack) : ¬S.Exists (.task t stack) := fun he =>
  h.unused _ he _ (A.own_ctx _) (A.own_block (A.own_ctx _))

theorem Threads.Gets.allocated (h : S.Gets A t stack) :
    Allocated A.abi S.machine t stack where
  fits := h.fits
  apart x hx := h.unused S.current (.inl rfl) x (h.room.own hx)

/-- The block of a new task is as it has to be for the first switch to it. -/
theorem Threads.Gets.kept (h : S.Gets A t stack) {fn arg id : BitVec 32}
    {mask : ℕ → BitVec 8} (hm : taskalloc A.abi S.machine next t fn arg stack id A.taskstart mask =
      some m) : Kept A m (.task t stack) ⟨true, .ofContext m (A.ctx (.task t stack)), m⟩ := by
  have hfresh := taskalloc_fresh h.allocated h.large hm
  have hfits : (A.stk (.task t stack)).toNat + stack.toNat ≤ 2 ^ 32 := by
    have hlarge := h.large
    have hblock := h.fits
    have hstk := h.allocated.toNat_stk (by omega)
    have heq : A.stk (.task t stack) = t + .ofNat 32 A.abi.sizeofTask := rfl
    rw [heq, hstk]
    omega
  have hesp : (Snapshot.ofContext m (A.ctx (.task t stack))).reg .esp =
      firstSp (A.stk (.task t stack)) stack := hfresh.prepared.esp
  constructor
  case holds => exact ⟨fun _ => rfl, fun _ => rfl, rfl⟩
  case own => exact fun _ _ => rfl
  case room =>
    intro x hx
    rw [hesp] at hx
    apply within_of_firstSp h.large hfits
    have hx' : Within (firstSp (A.stk (.task t stack)) stack - 4 + 0#32) 4 x := by
      rwa [BitVec.add_zero]
    exact hx'.of_add (i := 0) (by decide)
  case back => exact fun hf => absurd hf (by simp)
  case first =>
    intro _ t' stack' heq
    cases heq
    exact ⟨h.large, hfits, hfresh.prepared.eip, hesp, hesp.symm ▸ hfresh.prepared⟩

theorem Entry.enters (h : Entry A t stack q) (harg : arg e = A.ctx (.task t stack))
    (hown : ∀ x, A.Own (.task t stack) x → e.mem x = q.mem x) :
    let u := e.run setxmcontext
    u.eip = A.taskstart ∧ long u.mem (u.reg .esp) = 0 ∧
      taskstart (long u.mem (u.reg .esp + 4)) (long u.mem (u.reg .esp + 8)) = t ∧
      (u.reg .esp + 4).toNat % 16 = 0 := by
  intro u
  have hstack : ∀ x, Within (q.cpu.reg .esp) 12 x → e.mem x = q.mem x := by
    intro x hx
    rw [h.esp] at hx
    exact hown x (.inr (within_of_firstSp h.large h.fits (within_push (by decide) hx)))
  obtain ⟨hesp, heip, hzero, hfst, hsnd, -⟩ :=
    h.prepared.enter harg (fun x hx => hown x (.inl hx.within)) hstack
  have hargs : q.cpu.reg .esp + 4 = argsAt (A.stk (.task t stack)) stack := by
    rw [h.esp]
    exact BitVec.sub_add_cancel _ _
  rw [show u.reg .esp = q.cpu.reg .esp from hesp]
  refine ⟨heip, hzero, ?_, ?_⟩
  · rw [hfst, hsnd]
    exact taskstart_split t
  · rw [hargs]
    exact (argsAt_bounds h.large h.fits).2.2

theorem Entry.room (h : Entry A t stack q) :
    A.Room (.task t stack) (q.cpu.reg .esp) 12 := by
  obtain ⟨hlow, hhigh, -⟩ := argsAt_bounds h.large h.fits
  intro x hx
  rw [h.esp] at hx
  change Within (argsAt (A.stk (.task t stack)) stack - 4 - 12) 12 x at hx
  change Within (A.stk (.task t stack)) stack.toNat x
  unfold Within at hx ⊢
  bv_omega

/-- A part of the threads, with the same bytes and the same one on the processor. -/
theorem Threads.Inv.mono {S' : Threads} (h : S.Inv A) (hcur : S'.current = S.current)
    (hp : ∀ i q, S'.parked i = some q → S.parked i = some q)
    (hm : S.Spares A S.machine.mem S'.machine.mem) : S'.Inv A := by
  have hsome : ∀ i, S'.parked i ≠ none → S.parked i ≠ none := by
    intro i hi
    obtain ⟨q, hq⟩ := Option.ne_none_iff_exists'.mp hi
    rw [hp i q hq]
    simp
  have hex : ∀ i, S'.Exists i → S.Exists i := fun i hi =>
    hi.imp (fun he => he.trans hcur) (hsome i)
  constructor
  case current =>
    by_contra hne
    rw [hcur] at hne
    exact hsome _ hne h.current
  case apart => exact fun i j hi hj => h.apart i j (hex i hi) (hex j hj)
  case inner => exact fun i hi => h.inner i (hex i hi)
  case kept =>
    intro i q hq
    have hq' := hp i q hq
    exact (h.kept i q hq').congr fun x hx => hm i (by simp [hq']) x hx

theorem Threads.Inv.taskalloc (h : S.Inv A) (hg : S.Gets A t stack) {fn arg id : BitVec 32}
    {mask : ℕ → BitVec 8} (hm : Ucontext.taskalloc A.abi S.machine next t fn arg stack id
      A.taskstart mask = some m) :
    Threads.Inv A { S with
      machine := { S.machine with mem := m }
      parked := update S.parked (.task t stack)
        (some ⟨true, .ofContext m (A.ctx (.task t stack)), m⟩) } := by
  have hframe := (taskalloc_fresh hg.allocated hg.large hm).frame
  have hspare : S.Spares A S.machine.mem m := by
    intro i hi x hx
    apply hframe x (hg.unused i (.inr hi) x hx)
    intro hpush
    exact h.apart i S.current (.inr hi) (.inl rfl) (h.ne_current hi) x hx (hg.room.own hpush)
  have hne : S.current ≠ .task t stack := fun he => hg.new (.inl he.symm)
  -- The new thread is one more, and has its own bytes.
  have hex : ∀ i, i = S.current ∨ update S.parked (.task t stack)
      (some ⟨true, .ofContext m (A.ctx (.task t stack)), m⟩) i ≠ none → i ≠ .task t stack →
      S.Exists i := by
    intro i hi hit
    rwa [update_of_ne hit] at hi
  have hnew : ∀ i, S.Exists i → ∀ x, A.Own i x → ¬A.Own (.task t stack) x :=
    fun i hi x hx hx' => hg.unused i hi x hx (A.own_block hx')
  constructor
  case current =>
    simp only [update_of_ne hne]
    exact h.current
  case apart =>
    intro i j hi hj hij x hx hx'
    by_cases hit : i = .task t stack
    · have hjt : j ≠ .task t stack := fun he => hij (hit.trans he.symm)
      subst hit
      exact hnew j (hex j hj hjt) x hx' hx
    · by_cases hjt : j = .task t stack
      · subst hjt
        exact hnew i (hex i hi hit) x hx hx'
      · exact h.apart i j (hex i hi hit) (hex j hj hjt) hij x hx hx'
  case inner =>
    intro i hi
    by_cases hit : i = .task t stack
    · subst hit
      exact hg.allocated.context_apart
    · exact h.inner i (hex i hi hit)
  case kept =>
    intro i q hq
    by_cases hit : i = .task t stack
    · subst hit
      simp only [update_self, Option.some.injEq] at hq
      subst hq
      exact hg.kept hm
    · simp only [update_of_ne hit] at hq
      exact (h.kept i q hq).congr fun x hx => hspare i (by simp [hq]) x hx

/-- The first return of `getcontext`, with the registers stored for the second. -/
theorem Threads.Inv.saved_eq (h : S.Inv A)
    (harg : long S.machine.mem (S.machine.reg .esp) = A.ctx S.current)
    (hroom : A.Room S.current (S.machine.reg .esp) 4) :
    S.saved next = ⟨update S.machine.reg .eax 0, S.machine.seg, next,
      storeSnapshot (S.machine.call next).mem (A.ctx S.current)
        ⟨update S.machine.reg .eax 1, S.machine.seg, next⟩⟩ := by
  apply run_call_getxmcontext
  constructor
  case arg => exact harg
  case apart =>
    intro x hx hx'
    exact h.inner S.current (.inl rfl) x hx' (hroom x hx)

/-- Up to the call of `setxmcontext` only bytes of the thread itself are written. -/
theorem Threads.Switches.mem (h : S.Inv A) (hs : S.Switches A j next e) :
    S.Spares A S.machine.mem e.mem := by
  have hsaved : S.Spares A S.machine.mem (S.saved next).mem := by
    apply h.spares
    intro x hx
    rw [h.saved_eq hs.oucp hs.room]
    exact (storeSnapshot_of_not_within fun hw => hx (.inl hw)).trans
      (setLong_of_not_within fun hw => hx (hs.room.own hw))
  intro i hi x hx
  exact (hs.spares i hi x hx).trans (hsaved i hi x hx)

/-- What `setxmcontext` goes on with. -/
theorem Threads.Switches.run_eq (h : S.Inv A) (hs : S.Switches A j next e)
    (hj : S.parked j = some q) : e.run setxmcontext =
      q.cpu.machine (setLong e.mem (q.cpu.reg .esp - 4) q.cpu.eip) := by
  have hk := (h.kept j q hj).congr fun x hx => hs.mem h j hs.exists_j x hx
  have hcall : arg e = A.ctx j := hs.ucp
  apply run_setxmcontext
  · rw [hcall]
    exact hk.holds
  · rw [hcall]
    intro x hx hx'
    exact h.inner j (.inr hs.exists_j) x (hx.of_add (by decide)) (hk.room x hx')

theorem Threads.Inv.switch (h : S.Inv A) (hs : S.Switches A j next e) :
    Threads.Inv A {
      machine := e.run setxmcontext
      current := j
      parked := update (update S.parked S.current (some (S.left next e))) j none } := by
  obtain ⟨q, hq⟩ := Option.ne_none_iff_exists'.mp hs.exists_j
  have hjc : j ≠ S.current := h.ne_current hs.exists_j
  have hmem : ∀ i, i ≠ j → S.Exists i → ∀ x, A.Own i x → (e.run setxmcontext).mem x = e.mem x := by
    intro i hij hi x hx
    rw [hs.run_eq h hq]
    apply setLong_of_not_within
    intro hw
    exact h.apart i j hi (.inr hs.exists_j) hij x hx ((h.kept j q hq).room.own hw)
  have hex : ∀ i, (i = j ∨
    update (update S.parked S.current (some (S.left next e))) j none i ≠ none) →
      S.Exists i := by
    rintro i (rfl | hi)
    · exact .inr hs.exists_j
    · by_cases hij : i = j
      · subst hij
        exact .inr hs.exists_j
      · rw [update_of_ne hij] at hi
        by_cases hic : i = S.current
        · exact .inl hic
        · rw [update_of_ne hic] at hi
          exact .inr hi
  constructor
  case current => simp only [update_self]
  case apart => exact fun i k hi hk => h.apart i k (hex i hi) (hex k hk)
  case inner => exact fun i hi => h.inner i (hex i hi)
  case kept =>
    intro i q' hq'
    have hij : i ≠ j := by
      rintro rfl
      simp at hq'
    simp only [update_of_ne hij] at hq'
    by_cases hic : i = S.current
    · subst hic
      simp only [update_self, Option.some.injEq] at hq'
      subst hq'
      have hleft : Kept A e.mem S.current (S.left next e) := by
        constructor
        case holds =>
          have hstored := holds_storeSnapshot (S.machine.call next).mem (A.ctx S.current)
            (S.left next e).cpu
          apply hstored.congr
          intro x hx
          rw [hs.kept x hx, h.saved_eq hs.oucp hs.room]
          rfl
        case own => exact fun _ _ => rfl
        case room => exact hs.room
        case back => exact fun _ => rfl
        case first => exact fun hf => absurd hf (by simp [Threads.left])
      exact hleft.congr (hmem S.current hij (.inl rfl))
    · simp only [update_of_ne hic] at hq'
      have hi : S.parked i ≠ none := by simp [hq']
      apply (h.kept i q' hq').congr
      intro x hx
      exact (hmem i hij (.inr hi) x hx).trans (hs.mem h i hi x hx)

theorem Threads.Step.inv {S' : Threads} (h : S.Inv A) (hs : S.Step A S') : S'.Inv A := by
  cases hs with
  | run m hm => exact h.mono rfl (fun _ _ hq => hq) hm
  | taskalloc next fn arg id mask hg hm => exact h.taskalloc hg hm
  | free t stack hne =>
    refine h.mono rfl ?_ fun _ _ _ _ => rfl
    intro i q hq
    by_cases hi : i = .task t stack
    · simp [hi] at hq
    · simpa only [update_of_ne hi] using hq
  | switch j next e hsw => exact h.switch hsw

theorem Threads.Initial.inv (h : S.Initial) : S.Inv A where
  current := h.2 _
  apart i j hi hj hij := by
    have hall : ∀ k, S.Exists k → k = S.current := fun k hk => hk.resolve_right fun hp => hp (h.2 k)
    exact absurd ((hall i hi).trans (hall j hj).symm) hij
  inner i hi := by
    rw [hi.resolve_right fun hp => hp (h.2 i), h.1]
    exact A.apart
  kept i q hq := by
    rw [h.2 i] at hq
    cases hq

/-- A thread with three words left on its stack can switch to any other. -/
theorem Threads.Inv.switches (h : S.Inv A) (hj : S.parked j ≠ none)
    (hroom : A.Room S.current (S.machine.reg .esp) 12) (next next' : BitVec 32) :
    let S' := { S with machine := S.machine.push (A.ctx S.current) }
    S.Step A S' ∧ S'.Switches A j next (((S'.saved next).push (A.ctx j)).call next') := by
  intro S'
  have hroom' : A.Room S'.current (S'.machine.reg .esp) 4 := hroom.below (d := 4) (by decide)
  have hspare : S.Spares A S.machine.mem S'.machine.mem := by
    apply h.spares
    intro x hx
    apply setLong_of_not_within
    intro hw
    have htop : A.Room S.current (S.machine.reg .esp - 0#32) 4 := hroom.below (by decide)
    rw [BitVec.sub_zero] at htop
    exact hx (htop.own hw)
  have hI : S'.Inv A := h.mono rfl (fun _ _ hq => hq) hspare
  have harg : long S'.machine.mem (S'.machine.reg .esp) = A.ctx S'.current := long_setLong_self
  have hesp : (S'.saved next).reg .esp = S.machine.reg .esp - 4 := by
    rw [hI.saved_eq harg hroom']
    rfl
  have hpush : ∀ x, ¬Within (A.stk S.current) (A.stksize S.current) x →
      (((S'.saved next).push (A.ctx j)).call next').mem x = (S'.saved next).mem x := by
    intro x hx
    apply mem_push_call_push
    rw [hesp]
    exact fun hw => hx (hroom.below (d := 4) (k := 8) (by decide) x hw)
  refine ⟨.run _ hspare, ?_⟩
  constructor
  case oucp => exact harg
  case room => exact hroom'
  case spares =>
    intro i hi x hx
    apply hpush
    intro hw
    exact h.apart i S.current (.inr hi) (.inl rfl) (h.ne_current hi) x hx (.inr hw)
  case kept =>
    intro x hx
    apply hpush
    intro hw
    exact h.inner S.current (.inl rfl) x hx.within hw
  case ucp => exact arg_push_call _ _ _
  case exists_j => exact hj

theorem Threads.inv_of_reach (h : Reach (Threads.Step A) Threads.Initial S) : S.Inv A := by
  induction h using Reach.induct with
  | init h => exact h.inv
  | step _ hs ih => exact hs.inv ih

/-- The switch itself, from the thread on the processor to `j`. -/
theorem Threads.reach_switch (h : Reach (Threads.Step A) Threads.Initial S)
    (hq : S.parked j = some q) (hroom : A.Room S.current (S.machine.reg .esp) 12)
    (next : BitVec 32) : ∃ S', Reach (Threads.Step A) Threads.Initial S' ∧ S'.current = j ∧
      S'.machine.reg = q.cpu.reg ∧ ∃ p, S'.parked S.current = some p ∧ p.cpu.eip = next := by
  have hI := Threads.inv_of_reach h
  have hj : S.parked j ≠ none := by simp [hq]
  obtain ⟨hpush, hswitch⟩ := hI.switches hj hroom next next
  have hreach := h.snoc hpush
  have hrun := hswitch.run_eq (Threads.inv_of_reach hreach) hq
  have hne : S.current ≠ j := (hI.ne_current hj).symm
  refine ⟨_, hreach.snoc (.switch _ _ _ hswitch), rfl, ?_, ?_⟩
  · rw [hrun]
    rfl
  · simp only [update_of_ne hne, update_self]
    exact ⟨_, rfl, rfl⟩

end

/-- In the state `u` the thread `j` goes on from where `q` left it: with the same registers and the
same bytes but for the word below its stack, from `swapcontext` to its caller; or, the first time,
it enters `taskstart` with the address of the task. -/
structure GoesOn (A : Image) (j : Thread) (q : Parked) (u : Machine) : Prop where
  reg : u.reg = q.cpu.reg
  seg : u.seg = q.cpu.seg
  eip : u.eip = q.cpu.eip
  mem : ∀ x, A.Own j x → ¬ Within (q.cpu.reg .esp - 4) 4 x → u.mem x = q.mem x
  back : q.fresh = false → swapcontext (u.reg .eax) = .returns 0
  first : q.fresh = true → ∀ t stack, j = .task t stack → u.eip = A.taskstart ∧
    long u.mem (u.reg .esp) = 0 ∧
    taskstart (long u.mem (u.reg .esp + 4)) (long u.mem (u.reg .esp + 8)) = t ∧
    (u.reg .esp + 4).toNat % 16 = 0

/-- Whatever the threads do to their own and to common memory, however many there are and in
whatever order they are created, freed and switched to, each one goes on as it was left. -/
theorem threads_go_on {A : Image} {S : Threads} (h : Reach (Threads.Step A) Threads.Initial S)
    {j : Thread} {next : BitVec 32} {e : Machine} (hs : S.Switches A j next e) :
    ∃ q, S.parked j = some q ∧ GoesOn A j q (e.run setxmcontext) := by
  have hI := Threads.inv_of_reach h
  obtain ⟨q, hq⟩ := Option.ne_none_iff_exists'.mp hs.exists_j
  have hk := (hI.kept j q hq).congr fun x hx => hs.mem hI j hs.exists_j x hx
  have hrun := hs.run_eq hI hq
  refine ⟨q, hq, ?_⟩
  constructor
  case reg | seg | eip =>
    rw [hrun]
    rfl
  case mem =>
    intro x hx hw
    rw [hrun]
    exact (setLong_of_not_within hw).trans (hk.own x hx)
  case back =>
    intro hf
    have heax : (e.run setxmcontext).reg .eax = 1 := by
      rw [hrun]
      exact hk.back hf
    rw [heax]
    rfl
  case first =>
    intro hf t stack hj
    subst hj
    exact (hk.first hf t stack rfl).enters hs.ucp hk.own

def Image.small : Image where
  abi := linux
  taskstart := 0x804a010
  taskschedcontext := 0x8060000
  stack := 0xbffe0000
  size := 0x20000
  apart := by
    intro x hx hx'
    change Within (0x8060000 + 128) 80 x at hx
    unfold Within at hx hx'
    bv_omega

/-- The program as it starts. -/
def Threads.small : Threads where
  machine := ⟨fun _ => 0xbfff0000, fun _ => 0x2b, 0, fun _ => 0⟩
  current := .scheduler
  parked _ := none

theorem Threads.small_gets : Threads.small.Gets Image.small 0x8050000 256 := by
  have hsize : linux.sizeofTask + (256 : BitVec 32).toNat = 1268 := by decide
  constructor
  case fits => decide
  case large => decide
  case room =>
    intro x hx
    change Within (0xbfff0000 - 8) 8 x at hx
    change Within 0xbffe0000 0x20000 x
    unfold Within at hx ⊢
    bv_omega
  case unused =>
    intro i hi x hx hx'
    have hi : i = .scheduler := hi.resolve_right fun hp => hp rfl
    subst hi
    change Within 0x8050000 (linux.sizeofTask + (256 : BitVec 32).toNat) x at hx'
    rw [hsize] at hx'
    rcases hx with hx | hx
    · change Within (0x8060000 + 128) 80 x at hx
      unfold Within at hx hx'
      bv_omega
    · change Within 0xbffe0000 0x20000 x at hx
      unfold Within at hx hx'
      bv_omega

/-- The scheduler creates a task and switches to it, and the task switches back. -/
theorem threads_go_on_back : ∃ S next e, Reach (Threads.Step Image.small) Threads.Initial S ∧
    S.current = .task 0x8050000 256 ∧ S.Switches Image.small .scheduler next e ∧
    ∃ q, S.parked .scheduler = some q ∧ q.cpu.eip = 0x8048000 ∧
      GoesOn Image.small .scheduler q (e.run setxmcontext) := by
  have hgets := Threads.small_gets
  obtain ⟨m, hm⟩ := exists_taskalloc hgets.allocated 0 0 0 1 Image.small.taskstart fun _ => 0
  have hinit : Threads.small.Initial := ⟨rfl, fun _ => rfl⟩
  obtain ⟨S₁, hreach₁, hcur₁, hesp₁, q₁, hq₁, hentry⟩ : ∃ S₁,
      Reach (Threads.Step Image.small) Threads.Initial S₁ ∧ S₁.current = .scheduler ∧
        S₁.machine.reg .esp = 0xbfff0000 ∧ ∃ q, S₁.parked (.task 0x8050000 256) = some q ∧
          Entry Image.small 0x8050000 256 q :=
    ⟨_, (Reach.of_init hinit).snoc (Threads.Step.taskalloc 0 0 0 1 (fun _ => 0) hgets hm), rfl, rfl,
      _, by simp only [update_self], (hgets.kept hm).first rfl _ _ rfl⟩
  have hroom₁ : Image.small.Room S₁.current (S₁.machine.reg .esp) 12 := by
    intro x hx
    rw [hesp₁] at hx
    rw [hcur₁]
    change Within (0xbfff0000 - 12) 12 x at hx
    change Within 0xbffe0000 0x20000 x
    unfold Within at hx ⊢
    bv_omega
  obtain ⟨S₂, hreach₂, hcur₂, hreg₂, p, hp, hnext⟩ :=
    Threads.reach_switch hreach₁ hq₁ hroom₁ 0x8048000
  rw [hcur₁] at hp
  have hroom₂ := hentry.room
  rw [← hreg₂, ← hcur₂] at hroom₂
  obtain ⟨hpush, hswitch⟩ := (Threads.inv_of_reach hreach₂).switches (j := .scheduler)
    (by simp [hp]) hroom₂ 0x804a100 0x8048100
  have hreach := hreach₂.snoc hpush
  obtain ⟨q, hq, hon⟩ := threads_go_on hreach hswitch
  refine ⟨_, _, _, hreach, hcur₂, hswitch, q, hq, ?_, hon⟩
  have hqp : q = p := Option.some.inj (hq.symm.trans hp)
  rw [hqp]
  exact hnext

end Libtask.Ucontext
