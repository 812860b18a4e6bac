import Bourse.Delivery.Traffic
import Mathlib.Algebra.Order.Group.Multiset

/-!
# What a channel accepts is not lost

A `Course` of deeds keeps a set of `Accounts`: what was in the queue and what has been
accepted since is what the consumer was called with and what is in the queue now, in this
order, and likewise for the event in hand, for the producers inside and for each counter.
Every deed keeps them (`Step.accounts`), and accounts of two courses add up to those of
both, one after the other (`Accounts.append`). What holds once the channel is shut, or
once a closer has returned, follows from the accounts and from what `Sound` says of the
state then.
-/

namespace Bourse

variable {α : Type}

namespace Channel

variable {c c' : Channel α} {a : α}

theorem push?_eq_some (h : c.push? a = some c') :
    c.isFull = false ∧ c' = { c with queue := c.queue ++ [a] } := by
  rw [push?] at h
  split at h
  · cases h
  · next hfull => exact ⟨by simpa using hfull, (Option.some.inj h).symm⟩

theorem take_eq_some (h : c.take = some c') :
    c.inHand = none ∧
      ∃ a rest, c.queue = a :: rest ∧ c' = { c with inHand := some a, queue := rest } := by
  rw [take] at h
  split at h
  · next a rest hhand hqueue => exact ⟨hhand, a, rest, hqueue, (Option.some.inj h).symm⟩
  · cases h

theorem finish_of_inHand {fails : α → Bool} (h : c.inHand = some a) :
    c.finish fails =
      if fails a then
        { c with
          inHand := none
          counters := { c.counters with failures := c.counters.failures + 1 } }
      else
        { c with
          inHand := none
          consumed := c.consumed ++ [a]
          counters := { c.counters with delivered := c.counters.delivered + 1 } } := by
  rw [finish, h]

theorem finish_idle {fails : α → Bool} (h : c.inHand = none) : c.finish fails = c := by
  rw [finish, h]

end Channel

namespace Traffic

variable {t u v : Traffic α} {d : Deed α} {deeds before after : List (Deed α)}

/-! ### Accounts -/

/-- How the state after some deeds comes from the state before them. -/
structure Accounts (t : Traffic α) (deeds : List (Deed α)) (v : Traffic α) : Prop where
  delivery_eq : v.channel.delivery = t.channel.delivery
  queue_eq : t.channel.queue ++ accepted deeds = called deeds ++ v.channel.queue
  hand_eq :
    t.channel.inHand.toList ++ called deeds = finished deeds ++ v.channel.inHand.toList
  consumed_eq : v.channel.consumed = t.channel.consumed ++ delivered deeds
  offering_eq :
    (offered deeds : Multiset α) + t.offering =
      (accepted deeds : Multiset α) + (refused deeds : Multiset α) + v.offering
  enqueued_eq :
    t.channel.counters.enqueued + t.uncounted.count true + (accepted deeds).length =
      v.channel.counters.enqueued + v.uncounted.count true
  dropped_eq :
    t.channel.counters.dropped + t.uncounted.count false + (refused deeds).length =
      v.channel.counters.dropped + v.uncounted.count false
  delivered_eq :
    v.channel.counters.delivered = t.channel.counters.delivered + (delivered deeds).length
  failures_eq : v.channel.counters.failures = t.channel.counters.failures + (failed deeds).length
  finished_eq : (finished deeds).length = (delivered deeds).length + (failed deeds).length

theorem Accounts.nil : Accounts t [] t := by constructor <;> simp

theorem Accounts.append (h : Accounts t before u) (h' : Accounts u after v) :
    Accounts t (before ++ after) v where
  delivery_eq := h'.delivery_eq.trans h.delivery_eq
  queue_eq := by
    simp only [accepted, called, List.filterMap_append]
    rw [← List.append_assoc, h.queue_eq, List.append_assoc, h'.queue_eq, List.append_assoc]
  hand_eq := by
    simp only [called, finished, List.filterMap_append]
    rw [← List.append_assoc, h.hand_eq, List.append_assoc, h'.hand_eq, List.append_assoc]
  consumed_eq := by
    simp only [delivered, List.filterMap_append]
    rw [h'.consumed_eq, h.consumed_eq, List.append_assoc]
  offering_eq := by
    simp only [offered, accepted, refused, List.filterMap_append, ← Multiset.coe_add]
    rw [add_right_comm, h.offering_eq, add_assoc, add_comm u.offering, h'.offering_eq]
    ac_rfl
  enqueued_eq := by
    simp only [accepted, List.filterMap_append, List.length_append]
    rw [← Nat.add_assoc, h.enqueued_eq, h'.enqueued_eq]
  dropped_eq := by
    simp only [refused, List.filterMap_append, List.length_append]
    rw [← Nat.add_assoc, h.dropped_eq, h'.dropped_eq]
  delivered_eq := by
    simp only [delivered, List.filterMap_append, List.length_append]
    rw [h'.delivered_eq, h.delivered_eq, Nat.add_assoc]
  failures_eq := by
    simp only [failed, List.filterMap_append, List.length_append]
    rw [h'.failures_eq, h.failures_eq, Nat.add_assoc]
  finished_eq := by
    simp only [finished, delivered, failed, List.filterMap_append, List.length_append]
    rw [h.finished_eq, h'.finished_eq]
    simp only [delivered, failed]
    omega

theorem Step.accounts (h : Step t d v) : Accounts t [d] v := by
  cases h with
  | offers a => constructor <;> simp [List.filterMap_cons]
  | accepts hoffering hopen hpush =>
    obtain ⟨-, rfl⟩ := Channel.push?_eq_some hpush
    constructor <;> simp [List.filterMap_cons, hoffering, Nat.add_assoc]
  | refuses hoffering hrefusing =>
    constructor <;> simp [List.filterMap_cons, hoffering, Nat.add_assoc]
  | @counts accepted rest huncounted =>
    cases accepted <;> constructor <;>
      simp [List.filterMap_cons, huncounted, Channel.count, Nat.add_right_comm, ← Nat.add_assoc]
  | takes htake hhand =>
    obtain ⟨hidle, a, rest, hqueue, rfl⟩ := Channel.take_eq_some htake
    obtain rfl := Option.some.inj hhand
    constructor <;> simp [List.filterMap_cons, hidle, hqueue]
  | @finishes a fails hhand =>
    cases hfails : fails a <;> constructor <;>
      simp [List.filterMap_cons, hhand, hfails, Channel.finish_of_inHand]
  | shuts hquiet => constructor <;> simp [List.filterMap_cons, Channel.shut]
  | returns hopen hqueue hhand => constructor <;> simp [List.filterMap_cons]

theorem Course.accounts (h : Course t deeds v) : Accounts t deeds v := by
  induction h with
  | done => exact .nil
  | next hstep _ ih => exact hstep.accounts.append ih

/-- If it is `Quiet` in the end, each event offered has been accepted or turned away. -/
theorem Accounts.settled (h : Accounts t deeds v) (hstart : t.Quiet) (hend : v.Quiet) :
    (accepted deeds ++ refused deeds).Perm (offered deeds) := by
  have hoffering := h.offering_eq
  rw [hstart.1, hend.1, add_zero, add_zero, Multiset.coe_add] at hoffering
  exact Multiset.coe_eq_coe.mp hoffering.symm

/-- If no producer is left inside, each event accepted has been counted. -/
theorem Accounts.enqueued (h : Accounts t deeds v) (hstart : t.uncounted = 0)
    (hend : true ∉ v.uncounted) :
    v.channel.counters.enqueued = t.channel.counters.enqueued + (accepted deeds).length := by
  have hcounted := h.enqueued_eq
  rw [hstart, Multiset.count_zero, Multiset.count_eq_zero.mpr hend] at hcounted
  exact hcounted.symm

/-- If it is `Quiet` in the end, each event turned away has been counted. -/
theorem Accounts.dropped (h : Accounts t deeds v) (hstart : t.Quiet) (hend : v.Quiet) :
    v.channel.counters.dropped = t.channel.counters.dropped + (refused deeds).length := by
  have hcounted := h.dropped_eq
  rw [hstart.2, hend.2, Multiset.count_zero] at hcounted
  exact hcounted.symm

/-! ### The channel open and shut -/

/-- The queue keeps to its room, no accepted event awaits its count once the channel is shut,
and nothing is left once a closer has returned. -/
structure Sound (t : Traffic α) : Prop where
  room : t.channel.queue.length ≤ t.channel.delivery.capacity
  counted : t.channel.isOpen = false → true ∉ t.uncounted
  through : t.closed = true →
    t.channel.isOpen = false ∧ t.channel.queue = [] ∧ t.channel.inHand = none

theorem sound_idle (name : String) (delivery : DeliveryConfig) :
    (idle (.opened name delivery : Channel α)).Sound where
  room := Nat.zero_le _
  counted h := nomatch h
  through h := nomatch h

theorem Step.sound (h : Step t d v) (hsound : t.Sound) : v.Sound := by
  obtain ⟨hroom, hcounted, hthrough⟩ := hsound
  cases h with
  | offers a => exact ⟨hroom, hcounted, hthrough⟩
  | accepts hoffering hopen hpush =>
    obtain ⟨hfull, rfl⟩ := Channel.push?_eq_some hpush
    simp only [Channel.isFull, decide_eq_false_iff_not, Nat.not_le] at hfull
    refine ⟨by simpa using Nat.succ_le_of_lt hfull, fun hshut => ?_, fun hclosed => ?_⟩
    · exact absurd (hopen.symm.trans hshut) (by decide)
    · exact absurd (hopen.symm.trans (hthrough hclosed).1) (by decide)
  | refuses hoffering hrefusing =>
    exact ⟨hroom, fun hshut => by simpa using hcounted hshut, hthrough⟩
  | @counts accepted rest huncounted =>
    refine ⟨?_, fun hshut hmem => ?_, fun hclosed => ?_⟩
    · cases accepted <;> exact hroom
    · have hshut : t.channel.isOpen = false := by cases accepted <;> exact hshut
      exact hcounted hshut (huncounted ▸ Multiset.mem_cons_of_mem hmem)
    · cases accepted <;> exact hthrough hclosed
  | takes htake hhand =>
    obtain ⟨hidle, a, rest, hqueue, rfl⟩ := Channel.take_eq_some htake
    rw [hqueue, List.length_cons] at hroom
    refine ⟨Nat.le_of_succ_le hroom, hcounted, fun hclosed => ?_⟩
    have hempty := (hthrough hclosed).2.1
    rw [hqueue] at hempty
    cases hempty
  | finishes fails hhand =>
    rw [Channel.finish_of_inHand hhand]
    refine ⟨?_, fun hshut => hcounted ?_, fun hclosed => ?_⟩
    · split <;> exact hroom
    · revert hshut
      split <;> exact id
    · have hempty := (hthrough hclosed).2.2
      rw [hhand] at hempty
      cases hempty
  | shuts hquiet =>
    exact ⟨hroom, fun _ => by simp [hquiet.2], fun hclosed => ⟨rfl, (hthrough hclosed).2⟩⟩
  | returns hopen hqueue hhand => exact ⟨hroom, hcounted, fun _ => ⟨hopen, hqueue, hhand⟩⟩

theorem Course.sound (h : Course t deeds v) (hsound : t.Sound) : v.Sound := by
  induction h with
  | done => exact hsound
  | next hstep _ ih => exact ih (hstep.sound hsound)

/-- A channel is open after a deed if it was before, unless the deed is `shuts`. -/
theorem Step.isOpen_eq (h : Step t d v) (hshuts : d ≠ .shuts) :
    v.channel.isOpen = t.channel.isOpen := by
  cases h with
  | offers | refuses | returns => rfl
  | accepts hoffering hopen hpush => rw [(Channel.push?_eq_some hpush).2]
  | @counts accepted => cases accepted <;> rfl
  | takes htake hhand =>
    obtain ⟨-, a, rest, -, rfl⟩ := Channel.take_eq_some htake
    rfl
  | finishes fails hhand =>
    rw [Channel.finish_of_inHand hhand]
    split <;> rfl
  | shuts => exact absurd rfl hshuts

/-- A channel that is shut stays so: no `Step` opens it. -/
theorem Step.shut (h : Step t d v) (hshut : t.channel.isOpen = false) :
    v.channel.isOpen = false := by
  by_cases hshuts : d = .shuts
  · subst hshuts
    cases h
    rfl
  · rw [h.isOpen_eq hshuts, hshut]

/-- Once the channel is shut, nothing is accepted. -/
theorem Course.accepted_eq_nil (h : Course t deeds v) (hshut : t.channel.isOpen = false) :
    accepted deeds = [] := by
  induction h with
  | done => rfl
  | next hstep _ ih =>
    rw [accepted, List.filterMap_cons_none, ← accepted, ih (hstep.shut hshut)]
    cases hstep with
    | accepts hoffering hopen hpush => exact absurd hopen (by simp [hshut])
    | _ => rfl

/-- While the channel is open and its policy is `block`, nothing is turned away. -/
theorem Course.refused_eq_nil (h : Course t deeds v) (hopen : t.channel.isOpen = true)
    (hshuts : .shuts ∉ deeds) (hblock : t.channel.delivery.overflowPolicy = .block) :
    refused deeds = [] := by
  induction h with
  | done => rfl
  | next hstep _ ih =>
    obtain ⟨hfirst, hrest⟩ := List.ne_and_not_mem_of_not_mem_cons hshuts
    rw [refused, List.filterMap_cons_none, ← refused]
    · exact ih (by rw [hstep.isOpen_eq (Ne.symm hfirst), hopen]) hrest
        (by rw [hstep.accounts.delivery_eq, hblock])
    · cases hstep with
      | refuses hoffering hrefusing =>
        rcases hrefusing with hshut | ⟨-, hdrop⟩
        · exact absurd hopen (by simp [hshut])
        · exact absurd hblock (by simp [hdrop])
      | _ => rfl

theorem Course.split (h : Course t (before ++ after) v) :
    ∃ u, Course t before u ∧ Course u after v := by
  induction before generalizing t with
  | nil => exact ⟨t, .done, h⟩
  | cons d before ih =>
    cases h with
    | next hstep hrest =>
      obtain ⟨u, hbefore, hafter⟩ := ih hrest
      exact ⟨u, .next hstep hbefore, hafter⟩

/-! ### Every course can be brought to an end -/

/-- How much is left to do, each producer inside weighing as much as all that its event may still go
through; `exists_step` lessens it. -/
def remaining (t : Traffic α) : Nat :=
  4 * t.offering.card + t.uncounted.card + 2 * t.channel.queue.length +
    t.channel.inHand.toList.length

/-- Unless nothing is left to do, someone can take a `Step`. -/
theorem exists_step (hcap : 1 ≤ t.channel.delivery.capacity) :
    (t.Quiet ∧ t.channel.queue = [] ∧ t.channel.inHand = none) ∨
      ∃ d v, Step t d v ∧ v.remaining < t.remaining := by
  rcases t.uncounted.empty_or_exists_mem with hcounted | ⟨accepted, hmem⟩
  swap
  · obtain ⟨rest, huncounted⟩ := Multiset.exists_cons_of_mem hmem
    refine .inr ⟨_, _, .counts huncounted, ?_⟩
    cases accepted <;> simp [remaining, huncounted, Channel.count]
  cases hhand : t.channel.inHand with
  | some a =>
    refine .inr ⟨_, _, .finishes (fun _ => false) hhand, ?_⟩
    simp [remaining, Channel.finish_of_inHand, hhand]
  | none =>
    cases hqueue : t.channel.queue with
    | cons a rest =>
      have htake : t.channel.take = some { t.channel with inHand := some a, queue := rest } := by
        rw [Channel.take, hhand, hqueue]
      refine .inr ⟨_, _, .takes htake rfl, ?_⟩
      simp only [remaining, hhand, hqueue, List.length_cons, Option.toList_some,
        Option.toList_none, List.length_nil]
      omega
    | nil =>
      rcases t.offering.empty_or_exists_mem with hoffering | ⟨a, hmem⟩
      · exact .inl ⟨⟨hoffering, hcounted⟩, rfl, rfl⟩
      obtain ⟨rest, hoffering⟩ := Multiset.exists_cons_of_mem hmem
      cases hopen : t.channel.isOpen with
      | false =>
        refine .inr ⟨_, _, .refuses hoffering (.inl hopen), ?_⟩
        simp only [remaining, hoffering, hcounted, Multiset.card_cons, Multiset.card_zero]
        omega
      | true =>
        -- An empty queue has room, so `push?` need not wait.
        have hpush : t.channel.push? a = some { t.channel with queue := [a] } := by
          rw [Channel.push?, Channel.isFull, hqueue, List.length_nil,
            decide_eq_false (by omega), if_neg Bool.false_ne_true, List.nil_append]
        refine .inr ⟨_, _, .accepts hoffering hopen hpush, ?_⟩
        simp only [remaining, hoffering, hqueue, hcounted, Multiset.card_cons,
          Multiset.card_zero, List.length_singleton, List.length_nil]
        omega

theorem Course.append (h : Course t before u) (h' : Course u after v) :
    Course t (before ++ after) v := by
  induction h with
  | done => exact h'
  | next hstep _ ih => exact .next hstep (ih h')

/-- Whatever has happened, everyone inside can get through and a closer can return. -/
theorem exists_returned (hcap : 1 ≤ t.channel.delivery.capacity) :
    ∃ deeds v, Course t deeds v ∧ v.Quiet ∧ v.closed = true := by
  induction hn : t.remaining using Nat.strong_induction_on generalizing t with
  | h n ih =>
    rcases exists_step hcap with ⟨hquiet, hqueue, hhand⟩ | ⟨d, u, hstep, hless⟩
    · exact ⟨_, _, .next (.shuts hquiet) (.next (.returns rfl hqueue hhand) .done), hquiet, rfl⟩
    · obtain ⟨deeds, v, hcourse, hend⟩ :=
        ih u.remaining (hn ▸ hless) (hstep.accounts.delivery_eq ▸ hcap) rfl
      exact ⟨_, v, .next hstep hcourse, hend⟩

/-! ### What a channel does for one producer at a time

An `offer` and a `close` that nothing comes between are each a `Course`. -/

section

variable {c c' : Channel α} {a : α} {log : List Notice} (fails : α → Bool)
  (offering : Multiset α) (uncounted : Multiset Bool) (closed : Bool)

/-- An `offer` that gets an answer is a producer that comes in, has its event accepted or turned
away, and has that counted. -/
theorem course_of_offer (h : c.offer a = some (c', log)) :
    ∃ deeds, Course ⟨c, offering, uncounted, closed⟩ deeds ⟨c', offering, uncounted, closed⟩ ∧
      offered deeds = [a] := by
  have turned_away (hrefusing : Refusing c) :
      Course ⟨c, offering, uncounted, closed⟩ [.offers a, .refuses a, .counts false]
        ⟨c.count false, offering, uncounted, closed⟩ :=
    .next (.offers a) (.next (.refuses rfl hrefusing) (.next (.counts rfl) .done))
  rw [Channel.offer] at h
  split at h
  · next hopen =>
    cases h
    exact ⟨_, turned_away (.inl hopen), rfl⟩
  · next hopen =>
    split at h
    · next d hpush =>
      cases h
      exact ⟨[.offers a, .accepts a, .counts true],
        .next (.offers a) (.next (.accepts rfl (by simpa using hopen) hpush)
          (.next (.counts rfl) .done)), rfl⟩
    · next hpush =>
      have hfull : c.isFull = true := by
        rw [Channel.push?] at hpush
        split at hpush
        · assumption
        · cases hpush
      split at h
      · next hpolicy =>
        cases h
        exact ⟨_, turned_away (.inr ⟨hfull, hpolicy⟩), rfl⟩
      · cases h

/-- `work`, left to itself, makes a `Course`. -/
theorem course_of_work (n : Nat) :
    ∃ deeds, Course ⟨c, offering, uncounted, closed⟩ deeds
      ⟨c.work fails n, offering, uncounted, closed⟩ := by
  induction n generalizing c with
  | zero => exact ⟨_, .done⟩
  | succ n ih =>
    rw [Channel.work]
    cases htake : c.take with
    | none => exact ⟨_, .done⟩
    | some c' =>
      obtain ⟨-, a, rest, -, rfl⟩ := Channel.take_eq_some htake
      obtain ⟨deeds, hcourse⟩ := ih
      exact ⟨_, .next (.takes htake rfl) (.next (.finishes fails rfl) hcourse)⟩

/-- An idle worker that goes on long enough leaves nothing in the queue. -/
theorem work_through {n : Nat} (hhand : c.inHand = none) (hlen : c.queue.length ≤ n) :
    (c.work fails n).isOpen = c.isOpen ∧ (c.work fails n).queue = [] ∧
      (c.work fails n).inHand = none := by
  induction n generalizing c with
  | zero => exact ⟨rfl, List.eq_nil_of_length_eq_zero (Nat.le_zero.mp hlen), hhand⟩
  | succ n ih =>
    rw [Channel.work]
    cases hqueue : c.queue with
    | nil =>
      have htake : c.take = none := by rw [Channel.take, hhand, hqueue]
      rw [htake]
      exact ⟨rfl, hqueue, hhand⟩
    | cons a rest =>
      have htake : c.take = some { c with inHand := some a, queue := rest } := by
        rw [Channel.take, hhand, hqueue]
      rw [hqueue, List.length_cons] at hlen
      rw [htake]
      simp only [Channel.finish]
      split <;> exact ih rfl (Nat.le_of_succ_le_succ hlen)

/-- A channel on which `close` is called while no producer is inside is shut, and its worker goes on
until nothing is left. -/
theorem course_of_close :
    ∃ deeds, Course ⟨c, 0, 0, closed⟩ deeds ⟨c.close fails, 0, 0, true⟩ := by
  have idle {c : Channel α} {n : Nat} (hshut : c.isOpen = false) (hhand : c.inHand = none)
      (hlen : c.queue.length ≤ n) :
      ∃ deeds, Course ⟨c, 0, 0, closed⟩ deeds ⟨c.work fails n, 0, 0, true⟩ := by
    obtain ⟨deeds, hcourse⟩ := course_of_work (c := c) fails 0 0 closed n
    obtain ⟨hopen, hqueue, hidle⟩ := work_through fails hhand hlen
    exact ⟨_, hcourse.append (.next (.returns (hopen.trans hshut) hqueue hidle) .done)⟩
  have hshuts : Step ⟨c, 0, 0, closed⟩ .shuts ⟨c.shut, 0, 0, closed⟩ := .shuts ⟨rfl, rfl⟩
  rw [Channel.close, Channel.drain]
  cases hhand : c.inHand with
  | none =>
    have hidle : c.shut.inHand = none := hhand
    rw [Channel.finish_idle hidle]
    obtain ⟨deeds, hcourse⟩ := idle rfl hidle (Nat.le_refl c.shut.queue.length)
    exact ⟨_, .next hshuts hcourse⟩
  | some a =>
    have hbusy : c.shut.inHand = some a := hhand
    have hfinishes : Step ⟨c.shut, 0, 0, closed⟩ (.finishes a (fails a)) _ :=
      .finishes fails hbusy
    have hidle : (c.shut.finish fails).isOpen = false ∧
        (c.shut.finish fails).inHand = none ∧ (c.shut.finish fails).queue = c.queue := by
      rw [Channel.finish_of_inHand hbusy]
      split <;> exact ⟨rfl, rfl, rfl⟩
    obtain ⟨deeds, hcourse⟩ := idle hidle.1 hidle.2.1 (Nat.le_of_eq (congrArg _ hidle.2.2))
    exact ⟨_, .next hshuts (.next hfinishes hcourse)⟩

end

/-! ### Nothing accepted is lost -/

section

variable {name : String} {delivery : DeliveryConfig}

theorem quiet_opened : (idle (.opened name delivery : Channel α)).Quiet := ⟨rfl, rfl⟩

/-- When a closer has returned, the consumer has been `called` with and is done with every event
accepted. -/
theorem Course.done_of_closed (h : Course (idle (.opened name delivery)) deeds t)
    (hclosed : t.closed = true) :
    called deeds = accepted deeds ∧ finished deeds = accepted deeds ∧
      t.channel.stats.enqueued = t.channel.stats.delivered + t.channel.stats.failures ∧
      t.channel.stats.queued = 0 := by
  have haccounts := h.accounts
  have hsound := h.sound (sound_idle name delivery)
  obtain ⟨hshut, hempty, hidle⟩ := hsound.through hclosed
  have hqueue : accepted deeds = called deeds ++ t.channel.queue := haccounts.queue_eq
  have hhand : called deeds = finished deeds ++ t.channel.inHand.toList := haccounts.hand_eq
  rw [hempty, List.append_nil] at hqueue
  rw [hidle, Option.toList_none, List.append_nil] at hhand
  have henqueued : t.channel.counters.enqueued = 0 + (accepted deeds).length :=
    haccounts.enqueued rfl (hsound.counted hshut)
  have hdelivered : t.channel.counters.delivered = 0 + (delivered deeds).length :=
    haccounts.delivered_eq
  have hfailures : t.channel.counters.failures = 0 + (failed deeds).length :=
    haccounts.failures_eq
  refine ⟨hqueue.symm, hhand.symm.trans hqueue.symm, ?_, by simp [Channel.stats, hshut]⟩
  show t.channel.counters.enqueued = t.channel.counters.delivered + t.channel.counters.failures
  rw [henqueued, hdelivered, hfailures, hqueue, hhand, haccounts.finished_eq]
  omega

/-- While it is `Quiet`, each event offered has been counted once. -/
theorem Course.counted_of_quiet (h : Course (idle (.opened name delivery)) deeds t)
    (hquiet : t.Quiet) :
    t.channel.stats.enqueued + t.channel.stats.dropped = (offered deeds).length := by
  have haccounts := h.accounts
  have henqueued : t.channel.counters.enqueued = 0 + (accepted deeds).length :=
    haccounts.enqueued rfl (by simp [hquiet.2])
  have hdropped : t.channel.counters.dropped = 0 + (refused deeds).length :=
    haccounts.dropped quiet_opened hquiet
  have hoffered := (haccounts.settled quiet_opened hquiet).length_eq
  show t.channel.counters.enqueued + t.channel.counters.dropped = _
  rw [henqueued, hdropped, ← hoffered, List.length_append]
  omega

/-- What is offered before the first `shuts` is accepted if producers wait for room, and what is
offered after that is turned away. -/
theorem Course.parted_by_shut {before after : List (Deed α)}
    (h : Course (idle (.opened name delivery)) (before ++ .shuts :: after) t)
    (hshuts : .shuts ∉ before) :
    (delivery.overflowPolicy = .block →
      refused before = [] ∧ (accepted before).Perm (offered before)) ∧
    accepted after = [] ∧
    (t.Quiet →
      (refused after).Perm (offered after) ∧
      t.channel.stats.dropped = (refused before).length + (offered after).length) := by
  obtain ⟨u, hbefore, hrest⟩ := h.split
  cases hrest with
  | next hstep hafter =>
  cases hstep with
  | shuts hquiet =>
  have hnone := hafter.accepted_eq_nil rfl
  refine ⟨fun hblock => ?_, hnone, fun hend => ?_⟩
  · have hkept := hbefore.refused_eq_nil rfl hshuts hblock
    have hsettled := hbefore.accounts.settled quiet_opened hquiet
    rw [hkept, List.append_nil] at hsettled
    exact ⟨hkept, hsettled⟩
  · have hsettled := hafter.accounts.settled hquiet hend
    rw [hnone, List.nil_append] at hsettled
    have hdropped : u.channel.counters.dropped = 0 + (refused before).length :=
      hbefore.accounts.dropped quiet_opened hquiet
    refine ⟨hsettled, ?_⟩
    show t.channel.counters.dropped = _
    rw [hafter.accounts.dropped hquiet hend, ← hsettled.length_eq]
    show u.channel.counters.dropped + _ = _
    rw [hdropped, Nat.zero_add]

/-- On a channel of any room and either policy, whatever its producers, its worker and its
closers do and in whatever order:

* The consumer is called with the events accepted, each once and in the order of their
  acceptance; what it has not been called with is still in the queue, which keeps to its room.
  An event that it fails on changes nothing about the others: each one called is finished or
  failed on before the next, and consumed are those it did not fail on.
* Once a closer has returned, it has been called with every event accepted and is done with all
  of them. The counters agree, and nothing waits.
* While no producer is inside, each event offered has been counted as accepted or as dropped.
* If producers wait for room, nothing that is offered before the channel is first shut is
  turned away, and all of it has been accepted by then.
* What is offered after that is turned away, and counted once its producer has left. -/
theorem accepted_events_are_delivered
    (h : Course (idle (.opened name delivery)) deeds t) :
    (called deeds ++ t.channel.queue = accepted deeds ∧
      t.channel.queue.length ≤ delivery.capacity ∧
      finished deeds ++ t.channel.inHand.toList = called deeds ∧
      t.channel.consumed = delivered deeds) ∧
    (t.closed = true →
      called deeds = accepted deeds ∧ finished deeds = accepted deeds ∧
      t.channel.stats.enqueued = t.channel.stats.delivered + t.channel.stats.failures ∧
      t.channel.stats.queued = 0) ∧
    (t.Quiet →
      t.channel.stats.enqueued + t.channel.stats.dropped = (offered deeds).length) ∧
    (delivery.overflowPolicy = .block → .shuts ∉ deeds → refused deeds = []) ∧
    ∀ before after, deeds = before ++ .shuts :: after → .shuts ∉ before →
      (delivery.overflowPolicy = .block →
        refused before = [] ∧ (accepted before).Perm (offered before)) ∧
      accepted after = [] ∧
      (t.Quiet →
        (refused after).Perm (offered after) ∧
        t.channel.stats.dropped = (refused before).length + (offered after).length) := by
  have haccounts := h.accounts
  have hsound := h.sound (sound_idle name delivery)
  have hdelivery : t.channel.delivery = delivery := haccounts.delivery_eq
  have hqueue : accepted deeds = called deeds ++ t.channel.queue := haccounts.queue_eq
  have hhand : called deeds = finished deeds ++ t.channel.inHand.toList := haccounts.hand_eq
  refine ⟨⟨hqueue.symm, hdelivery ▸ hsound.room, hhand.symm, haccounts.consumed_eq⟩,
    h.done_of_closed, h.counted_of_quiet,
    fun hblock hshuts => h.refused_eq_nil rfl hshuts hblock, fun before after hdeeds hshuts => ?_⟩
  subst hdeeds
  exact h.parted_by_shut hshuts

end

/-- Two producers come in while the consumer is busy with an event that it then fails on, and
there is room for one of them only. The channel is shut before the worker gets to that one's
event, and another producer comes too late. -/
def crowd : List (Deed Nat) :=
  [.offers 1, .accepts 1, .counts true, .takes 1, .offers 2, .offers 3, .accepts 3, .counts true,
    .refuses 2, .counts false, .finishes 1 true, .shuts, .takes 3, .finishes 3 false, .returns,
    .offers 4, .refuses 4, .counts false]

/-- How `crowd` leaves a channel with room for one event. -/
def deserted : Traffic Nat :=
  ⟨⟨"trades", ⟨1, .dropNewest⟩, [], none, [3], false, ⟨2, 1, 2, 1⟩⟩, 0, 0, true⟩

theorem crowd_course : Course (idle (.opened "trades" ⟨1, .dropNewest⟩)) crowd deserted :=
  .next (.offers 1) <| .next (.accepts rfl rfl rfl) <| .next (.counts rfl) <|
  .next (.takes rfl rfl) <| .next (.offers 2) <| .next (.offers 3) <|
  .next (.accepts rfl rfl rfl) <| .next (.counts rfl) <|
  .next (.refuses rfl (.inr ⟨rfl, rfl⟩)) <| .next (.counts rfl) <|
  .next (.finishes (fun _ => true) rfl) <| .next (.shuts ⟨rfl, rfl⟩) <|
  .next (.takes rfl rfl) <| .next (.finishes (fun _ => false) rfl) <|
  .next (.returns rfl rfl rfl) <| .next (.offers 4) <| .next (.refuses rfl (.inl rfl)) <|
  .next (.counts rfl) .done

theorem accepted_events_are_delivered_crowd :
    Course (idle (.opened "trades" ⟨1, .dropNewest⟩)) crowd deserted ∧
      accepted crowd = [1, 3] ∧ called crowd = accepted crowd ∧
      deserted.channel.stats.enqueued =
        deserted.channel.stats.delivered + deserted.channel.stats.failures ∧
      deserted.channel.stats.enqueued + deserted.channel.stats.dropped =
        (offered crowd).length := by
  obtain ⟨-, hclosed, hquiet, -⟩ := accepted_events_are_delivered crowd_course
  obtain ⟨hcalled, -, hcounters, -⟩ := hclosed rfl
  exact ⟨crowd_course, rfl, hcalled, hcounters, hquiet ⟨rfl, rfl⟩⟩

end Traffic

end Bourse
