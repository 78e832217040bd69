import Mathlib.Logic.Relation
import Mathlib.Data.List.Infix
import Mathlib.Logic.Function.Basic

/-! Networks of tasks that send and receive over bounded channels, each with one sender and one
receiver. What a task does next depends on what it has done so far and nothing else, so the order
in which transfers happen makes no difference to what the tasks do. -/
namespace Dataflow
open Function Relation

variable {τ κ β : Type}

/-- A transfer a task has taken part in. -/
inductive Done (κ β : Type)
  | sent (c : κ) (b : β)
  | rcvd (c : κ) (b : β)

/-- What a task is to do next. -/
inductive Next (κ β : Type)
  | send (c : κ) (b : β)
  | recv (c : κ)
  | stop

/-- What every task has done so far, oldest first. -/
abbrev History (τ κ β : Type) := τ → List (Done κ β)

/-- The ends of each channel, and what each task does next after a history of its own. -/
structure Net (τ κ β : Type) where
  sender : κ → τ
  receiver : κ → τ
  next : τ → List (Done κ β) → Next κ β
  next_send : ∀ {t h c b}, next t h = .send c b → sender c = t
  next_recv : ∀ {t h c}, next t h = .recv c → receiver c = t

def sentOn [DecidableEq κ] (c : κ) : Done κ β → Option β
  | .sent c' b => if c' = c then some b else none
  | .rcvd _ _ => none

def rcvdOn [DecidableEq κ] (c : κ) : Done κ β → Option β
  | .sent _ _ => none
  | .rcvd c' b => if c' = c then some b else none

/-- The history after a transfer that adds `d` to it. -/
def after (d : τ → Option (Done κ β)) (H : History τ κ β) : History τ κ β :=
  fun t => H t ++ (d t).toList

/-- One history goes on from another. -/
def Extends (H K : History τ κ β) : Prop := ∀ t, H t <+: K t

section
variable {d e : τ → Option (Done κ β)} {H : History τ κ β}

theorem extends_after : Extends H (after d H) := fun _ => List.prefix_append _ _

theorem after_eq {t : τ} (h : d t = none) : after d H t = H t := by
  simp [after, h]

/-- Transfers of different tasks add to the history in either order. -/
theorem after_comm (h : ∀ t, d t = none ∨ e t = none) :
    after e (after d H) = after d (after e H) := by
  funext t
  rcases h t with h | h <;> simp [after, h]

end

namespace Net
variable {N : Net τ κ β} {H K L : History τ κ β} {c : κ} {b : β} {t : τ}

theorem ne_receiver (hs : N.next (N.sender c) (H (N.sender c)) = .send c b)
    (hr : N.next (N.receiver c) (H (N.receiver c)) = .recv c) : N.sender c ≠ N.receiver c := by
  intro he
  rw [← he] at hr
  cases hs.symm.trans hr

section Contents
variable [DecidableEq κ]

/-- What has been sent on a channel, and what has been received from it. -/
def sent (N : Net τ κ β) (c : κ) (H : History τ κ β) : List β :=
  (H (N.sender c)).filterMap (sentOn c)

def rcvd (N : Net τ κ β) (c : κ) (H : History τ κ β) : List β :=
  (H (N.receiver c)).filterMap (rcvdOn c)

theorem sent_extends (h : Extends H K) (c : κ) : N.sent c H <+: N.sent c K :=
  (h (N.sender c)).filterMap _

theorem rcvd_extends (h : Extends H K) (c : κ) : N.rcvd c H <+: N.rcvd c K :=
  (h (N.receiver c)).filterMap _

theorem sent_congr (h : K (N.sender c) = H (N.sender c)) : N.sent c K = N.sent c H := by
  rw [sent, h, sent]

theorem rcvd_congr (h : K (N.receiver c) = H (N.receiver c)) : N.rcvd c K = N.rcvd c H := by
  rw [rcvd, h, rcvd]

end Contents

section Transfers
variable [DecidableEq τ]

/-- The transfers, as what they add to the history of each task: into a channel, out of it, and
from hand to hand. -/
def putting (N : Net τ κ β) (c : κ) (b : β) : τ → Option (Done κ β) :=
  update (fun _ => none) (N.sender c) (some (.sent c b))

def getting (N : Net τ κ β) (c : κ) (b : β) : τ → Option (Done κ β) :=
  update (fun _ => none) (N.receiver c) (some (.rcvd c b))

def meeting (N : Net τ κ β) (c : κ) (b : β) : τ → Option (Done κ β) :=
  update (N.putting c b) (N.receiver c) (some (.rcvd c b))

theorem eq_sender (h : N.putting c b t ≠ none) : t = N.sender c := by
  by_contra hne
  exact h (by rw [putting, update_of_ne hne])

theorem eq_receiver (h : N.getting c b t ≠ none) : t = N.receiver c := by
  by_contra hne
  exact h (by rw [getting, update_of_ne hne])

theorem eq_of_meeting (h : N.meeting c b t ≠ none) : t = N.receiver c ∨ t = N.sender c := by
  by_cases hr : t = N.receiver c
  · exact .inl hr
  · rw [meeting, update_of_ne hr] at h
    exact .inr (eq_sender h)

theorem after_putting (h : t ≠ N.sender c) : after (N.putting c b) H t = H t :=
  after_eq (by rw [putting, update_of_ne h])

theorem after_getting (h : t ≠ N.receiver c) : after (N.getting c b) H t = H t :=
  after_eq (by rw [getting, update_of_ne h])

/-- From hand to hand is into the channel and out of it. -/
theorem after_meeting (hne : N.sender c ≠ N.receiver c) :
    after (N.meeting c b) H = after (N.getting c b) (after (N.putting c b) H) := by
  funext t
  by_cases hr : t = N.receiver c
  · subst hr
    simp [after, meeting, getting, putting, hne.symm]
  · simp [after, meeting, getting, hr]

end Transfers

variable [DecidableEq τ] [DecidableEq κ]

/-- The transfers that can happen. Only a channel without room needs both tasks at once. -/
inductive Enabled (N : Net τ κ β) (room : κ → ℕ) (H : History τ κ β) :
    (τ → Option (Done κ β)) → Prop
  | put {c : κ} {b : β} (h0 : room c ≠ 0) (hs : N.next (N.sender c) (H (N.sender c)) = .send c b)
      (hroom : (N.sent c H).length < (N.rcvd c H).length + room c) :
      Enabled N room H (N.putting c b)
  | get {c : κ} {b : β} {rest : List β} (h0 : room c ≠ 0)
      (hr : N.next (N.receiver c) (H (N.receiver c)) = .recv c)
      (hheld : N.sent c H = N.rcvd c H ++ b :: rest) : Enabled N room H (N.getting c b)
  | meet {c : κ} {b : β} (h0 : room c = 0)
      (hs : N.next (N.sender c) (H (N.sender c)) = .send c b)
      (hr : N.next (N.receiver c) (H (N.receiver c)) = .recv c) : Enabled N room H (N.meeting c b)

def Fire (N : Net τ κ β) (room : κ → ℕ) (H K : History τ κ β) : Prop :=
  ∃ d, N.Enabled room H d ∧ K = after d H

/-- No transfer can happen. -/
def Stuck (N : Net τ κ β) (room : κ → ℕ) (H : History τ κ β) : Prop := ∀ d, ¬N.Enabled room H d

variable {room : κ → ℕ} {d e : τ → Option (Done κ β)}

/-- A transfer stays possible while other tasks go on. -/
theorem Enabled.mono (h : N.Enabled room H d) (hK : Extends H K)
    (hd : ∀ t, d t ≠ none → K t = H t) : N.Enabled room K d := by
  cases h with
  | @put c b h0 hs hroom =>
    have hsnd : K (N.sender c) = H (N.sender c) := hd _ (by simp [putting])
    refine .put h0 (by rw [hsnd, hs]) ?_
    rw [sent_congr hsnd]
    have hle := (rcvd_extends (N := N) hK c).length_le
    omega
  | @get c b rest h0 hr hheld =>
    have hrcv : K (N.receiver c) = H (N.receiver c) := hd _ (by simp [getting])
    obtain ⟨more, hmore⟩ := sent_extends (N := N) hK c
    refine .get h0 (by rw [hrcv, hr]) (?_ : _ = _ ++ b :: (rest ++ more))
    rw [rcvd_congr hrcv, ← hmore, hheld, List.append_assoc, List.cons_append]
  | @meet c b h0 hs hr =>
    have hrcv : K (N.receiver c) = H (N.receiver c) := hd _ (by simp [meeting])
    have hsnd : K (N.sender c) = H (N.sender c) := by
      refine hd _ ?_
      by_cases he : N.sender c = N.receiver c <;> simp [meeting, putting, he]
    exact .meet h0 (by rw [hsnd, hs]) (by rw [hrcv, hr])

@[simp] theorem sent_putting : N.sent c (after (N.putting c b) H) = N.sent c H ++ [b] := by
  simp [sent, after, putting, sentOn]

@[simp] theorem rcvd_putting : N.rcvd c (after (N.putting c b) H) = N.rcvd c H := by
  by_cases he : N.receiver c = N.sender c <;> simp [rcvd, after, putting, rcvdOn, he]

@[simp] theorem sent_getting : N.sent c (after (N.getting c b) H) = N.sent c H := by
  by_cases he : N.sender c = N.receiver c <;> simp [sent, after, getting, sentOn, he]

@[simp] theorem rcvd_getting : N.rcvd c (after (N.getting c b) H) = N.rcvd c H ++ [b] := by
  simp [rcvd, after, getting, rcvdOn]

/-- An element goes through a channel that holds none. -/
theorem fires_through (hs : N.next (N.sender c) (H (N.sender c)) = .send c b)
    (hr : N.next (N.receiver c) (H (N.receiver c)) = .recv c) (hempty : N.sent c H = N.rcvd c H) :
    ReflTransGen (N.Fire room) H (after (N.getting c b) (after (N.putting c b) H)) := by
  by_cases h0 : room c = 0
  · rw [← after_meeting (ne_receiver hs hr)]
    exact .single ⟨_, .meet h0 hs hr, rfl⟩
  · have hput : N.Enabled room H (N.putting c b) := .put h0 hs (by rw [hempty]; omega)
    have hget : N.Enabled room (after (N.putting c b) H) (N.getting c b) := by
      refine .get h0 ?_ (show _ = _ ++ b :: [] by simp [hempty])
      rw [after_putting (ne_receiver hs hr).symm, hr]
    exact (ReflTransGen.single ⟨_, hput, rfl⟩).tail ⟨_, hget, rfl⟩

/-- An element leaves a full buffer and another takes its place. -/
theorem fires_refill {b' : β} {rest : List β} (h0 : room c ≠ 0)
    (hs : N.next (N.sender c) (H (N.sender c)) = .send c b)
    (hr : N.next (N.receiver c) (H (N.receiver c)) = .recv c)
    (hheld : N.sent c H = N.rcvd c H ++ b' :: rest) (hroom : rest.length < room c) :
    ReflTransGen (N.Fire room) H (after (N.putting c b) (after (N.getting c b') H)) := by
  have hget : N.Enabled room H (N.getting c b') := .get h0 hr hheld
  have hput : N.Enabled room (after (N.getting c b') H) (N.putting c b) := by
    refine .put h0 ?_ ?_
    · rw [after_getting (ne_receiver hs hr), hs]
    · rw [sent_getting, rcvd_getting, hheld]
      simp only [List.length_append, List.length_cons, List.length_nil]
      omega
  exact (ReflTransGen.single ⟨_, hget, rfl⟩).tail ⟨_, hput, rfl⟩

/-- What a task that takes part in a transfer is to do next decides the transfer. -/
theorem Enabled.of_send (h : N.Enabled room H d) (ht : d t ≠ none)
    (hn : N.next t (H t) = .send c b) :
    d = if room c = 0 then N.meeting c b else N.putting c b := by
  cases h with
  | put h0 hs _ =>
    obtain rfl := eq_sender ht
    cases hs.symm.trans hn
    rw [if_neg h0]
  | get h0 hr _ =>
    obtain rfl := eq_receiver ht
    cases hr.symm.trans hn
  | meet h0 hs hr =>
    rcases eq_of_meeting ht with rfl | rfl
    · cases hr.symm.trans hn
    · cases hs.symm.trans hn
      rw [if_pos h0]

theorem Enabled.of_recv (h : N.Enabled room H d) (ht : d t ≠ none)
    (hn : N.next t (H t) = .recv c) :
    (room c ≠ 0 ∧ ∃ b rest, N.sent c H = N.rcvd c H ++ b :: rest ∧ d = N.getting c b) ∨
      (room c = 0 ∧ ∃ b, N.next (N.sender c) (H (N.sender c)) = .send c b ∧ d = N.meeting c b) := by
  cases h with
  | put h0 hs _ =>
    obtain rfl := eq_sender ht
    cases hs.symm.trans hn
  | get h0 hr hheld =>
    obtain rfl := eq_receiver ht
    cases hr.symm.trans hn
    exact .inl ⟨h0, _, _, hheld, rfl⟩
  | meet h0 hs hr =>
    rcases eq_of_meeting ht with rfl | rfl
    · cases hr.symm.trans hn
      exact .inr ⟨h0, _, hs, rfl⟩
    · cases hs.symm.trans hn

theorem Enabled.not_stop (h : N.Enabled room H d) (ht : d t ≠ none) : N.next t (H t) ≠ .stop := by
  intro hn
  cases h with
  | put _ hs _ =>
    obtain rfl := eq_sender ht
    cases hs.symm.trans hn
  | get _ hr _ =>
    obtain rfl := eq_receiver ht
    cases hr.symm.trans hn
  | meet _ hs hr =>
    rcases eq_of_meeting ht with rfl | rfl
    · cases hr.symm.trans hn
    · cases hs.symm.trans hn

/-- Two transfers that share a task are the same. -/
theorem Enabled.unique (h : N.Enabled room H d) (h' : N.Enabled room H e) (hd : d t ≠ none)
    (he : e t ≠ none) : d = e := by
  cases hn : N.next t (H t) with
  | send c b => rw [h.of_send hd hn, h'.of_send he hn]
  | recv c =>
    rcases h.of_recv hd hn with ⟨h0, b, rest, hheld, rfl⟩ | ⟨h0, b, hs, rfl⟩
    · rcases h'.of_recv he hn with ⟨_, b', rest', hheld', rfl⟩ | ⟨h0', _⟩
      · rw [hheld, List.append_cancel_left_eq] at hheld'
        rw [(List.cons.inj hheld').1]
      · exact absurd h0' h0
    · rcases h'.of_recv he hn with ⟨h0', _⟩ | ⟨_, b', hs', rfl⟩
      · exact absurd h0 h0'
      · cases hs.symm.trans hs'
        rfl
  | stop => exact absurd hn (h.not_stop hd)

/-- Two different transfers can happen in either order, to the same effect. -/
theorem Fire.diamond (h : N.Fire room H K) (h' : N.Fire room H L) :
    K = L ∨ ∃ M, N.Fire room K M ∧ N.Fire room L M := by
  obtain ⟨d, hd, rfl⟩ := h
  obtain ⟨e, he, rfl⟩ := h'
  by_cases hshare : ∃ t, d t ≠ none ∧ e t ≠ none
  · obtain ⟨t, hdt, het⟩ := hshare
    rw [hd.unique he hdt het]
    exact .inl rfl
  · have hapart : ∀ t, d t = none ∨ e t = none := by
      intro t
      by_contra hne
      exact hshare ⟨t, not_or.mp hne⟩
    refine .inr ⟨after e (after d H), ⟨e, he.mono extends_after fun t ht => ?_, rfl⟩,
      ⟨d, hd.mono extends_after fun t ht => ?_, after_comm hapart⟩⟩
    · exact after_eq ((hapart t).resolve_right ht)
    · exact after_eq ((hapart t).resolve_left ht)

theorem Fire.extends (h : N.Fire room H K) : Extends H K := by
  obtain ⟨d, _, rfl⟩ := h
  exact extends_after

theorem extends_of_fires (h : ReflTransGen (N.Fire room) H K) : Extends H K := by
  induction h with
  | refl => exact fun _ => List.prefix_rfl
  | tail _ hf ih => exact fun t => (ih t).trans (hf.extends t)

/-- Any two ways to go on from a history can be brought together again. -/
theorem confluent (h : ReflTransGen (N.Fire room) H K) (h' : ReflTransGen (N.Fire room) H L) :
    Join (ReflTransGen (N.Fire room)) K L := by
  refine church_rosser (fun x y z hy hz => ?_) h h'
  rcases hy.diamond hz with rfl | ⟨w, hyw, hzw⟩
  · exact ⟨y, .refl, .refl⟩
  · exact ⟨w, .single hyw, .single hzw⟩

/-- In two runs of a network what is received from a channel is the same as far as both go. -/
theorem rcvd_comparable (h : ReflTransGen (N.Fire room) H K)
    (h' : ReflTransGen (N.Fire room) H L) (c : κ) :
    N.rcvd c K <+: N.rcvd c L ∨ N.rcvd c L <+: N.rcvd c K := by
  obtain ⟨M, hK, hL⟩ := confluent h h'
  exact List.prefix_or_prefix_of_prefix (rcvd_extends (extends_of_fires hK) c)
    (rcvd_extends (extends_of_fires hL) c)

theorem Stuck.eq_of_fires (h : N.Stuck room H) (hK : ReflTransGen (N.Fire room) H K) : H = K := by
  rcases hK.cases_head with rfl | ⟨_, ⟨d, hd, _⟩, _⟩
  · rfl
  · exact absurd hd (h d)

/-- Two runs that have both come to an end have done the same. -/
theorem stuck_unique (h : ReflTransGen (N.Fire room) H K) (h' : ReflTransGen (N.Fire room) H L)
    (hK : N.Stuck room K) (hL : N.Stuck room L) : K = L := by
  obtain ⟨M, hKM, hLM⟩ := confluent h h'
  rw [hK.eq_of_fires hKM, hL.eq_of_fires hLM]

end Net
end Dataflow
