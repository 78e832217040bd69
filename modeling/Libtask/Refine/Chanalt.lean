import Libtask.ChannelFrame
import Libtask.Refine.Walk

/-! Channels: the functions of channel.c never read a task list, so they do on the sequences
what they do on the links, and every call of `chanalt` is a walk of the abstract machine. -/
namespace Libtask
open Function

section Natural
variable {σ τ : Type} (s : Sys σ) (x : τ) (base : ℕ) (t : TaskPtr) (p : AltPtr)

/-- Another representation of the lists makes no difference to channel.c. -/
theorem unseen_withLinks : Unseen (fun s : Sys σ => s.withLinks x) fun _ => True where
  chan _ := rfl
  alts _ _ _ := rfl
  setChan _ _ _ := rfl
  setXalt _ _ _ _ := rfl
  altcopyDirect _ _ _ _ _ _ := rfl
  altcopyRecv _ _ _ _ := rfl
  altcopySend s c p snd := by
    simp only [altcopySend, show (s.withLinks x).chan = s.chan from rfl]
    split <;> rfl

theorem altpick_withLinks (n rand : ℕ) :
    altpick base (s.withLinks x) n rand = altpick base s n rand :=
  (unseen_withLinks x).offQueues.altpick trivial n rand

theorem altqueueAll_withLinks (is : List ℕ) : altqueueAll base is (s.withLinks x) =
    (altqueueAll base is s).map (·.withLinks x) :=
  (unseen_withLinks x).offQueues.altqueueAll trivial is

theorem altexecMatch_withLinks (rand : ℕ) : altexecMatch p rand (s.withLinks x) =
    (altexecMatch p rand s).map fun r => (r.1.withLinks x, r.2) :=
  (unseen_withLinks x).altexecMatch (fun _ => rfl) rand fun _ _ _ _ => ⟨fun _ => rfl, by simp⟩

end Natural

/-- A function that does not look at the lists does the same to related states. -/
theorem Sim.natural {f : Sys Links → Except Halt (Sys Links)}
    {g : Sys Queues → Except Halt (Sys Queues)} {s : Sys Links} {a b : Sys Queues}
    (hg : ∀ q, g (s.withLinks q) = (f s).map (·.withLinks q))
    (hf : f (s.withLinks s.links) = (f s).map (·.withLinks s.links)) (h : Sim s a)
    (hb : g a = .ok b) : ∃ s', f s = .ok s' ∧ Sim s' b := by
  obtain ⟨q, hq, rfl⟩ := h
  rw [hg] at hb
  cases hs : f s with
  | error e =>
    rw [hs] at hb
    cases hb
  | ok s' =>
    rw [hs] at hb
    cases hb
    rw [show s.withLinks s.links = s from rfl, hs] at hf
    have hl : s' = s'.withLinks s.links := Except.ok.inj hf
    exact ⟨s', rfl, q, by rw [hl]; exact hq, rfl⟩

section Chanalt
variable {s : Sys Links} {a b : Sys Queues} {pl : Placement} {t : TaskPtr} {base : ℕ}
  {as : List Alt}

theorem Sim.altenter (h : Sim s a) (base : ℕ) (as : List Alt) (t : TaskPtr) :
    Sim (s.altenter base as t) (a.altenter base as t) := by
  obtain ⟨q, hq, rfl⟩ := h
  exact ⟨q, hq, rfl⟩

theorem Sim.altqueueAll {is : List ℕ} (h : Sim s a) (hb : altqueueAll base is a = .ok b) :
    ∃ s', altqueueAll base is s = .ok s' ∧ Sim s' b :=
  h.natural (fun q => altqueueAll_withLinks s q base is)
    (altqueueAll_withLinks s s.links base is) hb

theorem Sim.altexecMatch {p : AltPtr} {rand : ℕ} {u : Option TaskPtr} (h : Sim s a)
    (hb : altexecMatch p rand a = .ok (b, u)) :
    ∃ s', altexecMatch p rand s = .ok (s', u) ∧ Sim s' b := by
  obtain ⟨q, hq, rfl⟩ := h
  have hf := altexecMatch_withLinks s s.links p rand
  rw [altexecMatch_withLinks] at hb
  cases hs : Libtask.altexecMatch p rand s with
  | error e =>
    rw [hs] at hb
    cases hb
  | ok r =>
    rw [hs] at hb
    cases hb
    rw [show s.withLinks s.links = s from rfl, hs] at hf
    have hl : r.1 = r.1.withLinks s.links := congrArg Prod.fst (Except.ok.inj hf)
    exact ⟨r.1, rfl, q, by rw [hl]; exact hq, rfl⟩

/-- A task that could be made ready was in no list before. -/
theorem Placed.not_mem_of_ready {u : TaskPtr} (h : Placed (a.ready u) pl) :
    ∀ k, u ∉ a.links k := by
  have hu : pl u = some .runqueue := h.mem_list.mp (by simp [Sys.ready, Sys.enq])
  intro k hm
  have hc := h.list k u
  rw [hu] at hc
  by_cases hk : k = .taskrunqueue
  · subst hk
    have hp := List.count_pos_iff.mpr hm
    simp only [Sys.ready, Sys.enq, Sys.emit, Sys.setTask, update_self, List.count_append,
      List.count_cons_self, if_true] at hc
    omega
  · have hp := List.count_pos_iff.mpr hm
    simp only [Sys.ready, Sys.enq, Sys.emit, Sys.setTask, update_of_ne hk, Option.some.injEq,
      Loc.list.injEq, Ne.symm hk, if_false] at hc
    omega

/-- Related states pick the same branch. -/
theorem Sim.altpick_altenter (h : Sim s a) (base : ℕ) (as : List Alt) (t : TaskPtr) (n rand : ℕ) :
    altpick base (a.altenter base as t) n rand = altpick base (s.altenter base as t) n rand := by
  obtain ⟨q, _, hq⟩ := h.altenter base as t
  rw [hq, altpick_withLinks]

/-- A call of `chanalt`, on the state in which the array is stamped. -/
theorem chanalt_eq (s : Sys Links) (base : ℕ) (as : List Alt) (rand₁ rand₂ : ℕ) (t : TaskPtr) :
    chanalt base rand₁ rand₂ t ({ s with alts := update s.alts base as }.emit (.altcall t base)) =
      match altpick base (s.altenter base as t) (altlen as) rand₁ with
      | some i => (altexec ⟨base, i⟩ rand₂ (s.altenter base as t)).map fun s =>
          (s.emit (.altret t base i), .value i)
      | none =>
        if (as[altlen as]?).any (·.op = .CHANEND) then
          (altqueueAll base (List.range (altlen as)) (s.altenter base as t)).map fun s =>
            (taskswitch (.chanalt base) t s, .switched)
        else .ok ((s.altenter base as t).emit (.altret t base (-1)), .value (-1)) := by
  have halts : (({ s with alts := update s.alts base as } : Sys Links).emit
      (.altcall t base)).alts base = as := update_self ..
  have hent : altstamp base t (({ s with alts := update s.alts base as } : Sys Links).emit
      (.altcall t base)) = s.altenter base as t := rfl
  simp only [chanalt, halts, hent]
  cases altpick base (s.altenter base as t) (altlen as) rand₁ with
  | some i => rfl
  | none =>
    by_cases hc : (as[altlen as]?).any (·.op = .CHANEND)
    · simp only [hc, if_true]
      rfl
    · simp only [hc]
      rfl

theorem altexec_eq {p : AltPtr} {rand : ℕ} {s' : Sys Links} {u : Option TaskPtr}
    (h : altexecMatch p rand s = .ok (s', u)) :
    altexec p rand s = .ok (u.elim s' fun v => taskready v s') := by
  rw [altexec, h]
  cases u <;> rfl

theorem walks_chanalt {rand₁ rand₂ : ℕ} (h : Sim s a) (hI : Inv a pl) (ht : a.User t)
    (has : ∃ x ∈ as, isAltend x.op) (hbase : Inv.Unused a base) :
    Walks none a (finish t s (chanalt base rand₁ rand₂ t
      ({ s with alts := update s.alts base as }.emit (.altcall t base)))) := by
  have hent := h.altenter base as t
  rw [chanalt_eq, ← h.altpick_altenter]
  cases hi : altpick base (a.altenter base as t) (altlen as) rand₁ with
  | some i =>
    obtain ⟨b, u, c, evs, pl', hok, hb, hinv, _, _⟩ := hI.altrun ht hbase hi rand₂
    obtain ⟨s', hok', hs'⟩ := hent.altexecMatch hok
    have hm := Move.altrun ht has hbase hi hok
    have hc : b.control = .user := by
      rw [hb]
      exact ht.2
    simp only [altexec_eq hok', Except.map]
    cases u with
    | none => exact finish_value (.one hm) (hs'.emit _) hc
    | some u =>
      exact finish_value (.one hm)
        ((hs'.taskready hinv.placed.not_mem_of_ready).emit _) hc
  | none =>
    simp only
    split
    · rename_i hn
      obtain ⟨b, hok, hinv⟩ := hI.altwait ht has hbase hi
      have hex := hinv.not_exiting (update_self ..)
      rw [Sys.switch_exiting] at hex
      obtain ⟨s', hok', hs'⟩ := hent.altqueueAll hok
      simp only [hok', Except.map]
      exact finish_switched (.one (.altblock ht has hbase hi hn hok)) (hs'.taskswitch _ hex)
    · rename_i hn
      exact finish_value (.one (.altfail ht has hbase hi (Bool.eq_false_iff.mpr hn)))
        (hent.emit _) ht.2

/-- The call of `chanalt` of a task that was blocked in it and has been dispatched. -/
theorem walks_chanaltBack (h : Sim s a) (hI : Inv a pl) (ht : a.Resuming t (.chanalt base)) :
    Walks none a (finish t s (chanaltBack base t s)) := by
  have hg : (a.task t).context.granted a t := hI.fits t _ (hI.resuming ht)
  rw [ht.2.2] at hg
  obtain ⟨j, x, hx, hxj, _⟩ := hg
  have hd : s.deref ⟨base, 0⟩ = .ok x := by
    obtain ⟨q, hq, rfl⟩ := h
    exact deref_eq hx
  have hb : x.xalt.base = base := by rw [hxj]
  have hok : chanaltBack base t s =
      .ok (s.emit (.altret t base x.xalt.idx), .value x.xalt.idx) := by
    simp [chanaltBack, hd, hb, bind, Except.bind, pure, Except.pure]
  rw [hok]
  exact back_value (.altback ht hx hb) (h.emit _)

end Chanalt
end Libtask
