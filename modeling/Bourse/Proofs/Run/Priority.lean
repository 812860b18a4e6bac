import Bourse.Proofs.Engine.Lively
import Bourse.Proofs.Run.Basic

/-!
# Price-time priority over whole runs

An order is entered into its queue when it is accepted, and again when its price is
changed or its quantity increased (`queues`). The `entry` of an order is the latest turn
that has done so, read off the past alone; the engine keeps no such record. It numbers
arrivals, and what carries the proof is that these numbers order the resting orders just
as their entries do (`Ranked`). A turn queues one order at most (`Turn.queues_inj`), under
a number later than all before, and no other order ever changes its number (`Turn.Keeps`).
-/

namespace Bourse

/-- The request changes the price of an order or increases its quantity. -/
def ModifyRequest.Requeues (request : ModifyRequest) (o : Order) : Prop :=
  ¬ Desk.SamePrice (request.price.or o.price) o.price ∨ o.remaining < request.quantity

instance (request : ModifyRequest) (o : Order) : Decidable (request.Requeues o) := by
  unfold ModifyRequest.Requeues
  infer_instance

theorem requeues_iff {request : ModifyRequest} {o : Order} :
    request.Requeues o ↔ ¬ (Desk.SamePrice (request.price.or o.price) o.price ∧
      request.quantity ≤ o.remaining) := by
  constructor
  · rintro (hprice | hmore) ⟨hsame, hle⟩
    · exact hprice hsame
    · exact Int.not_le.mpr hmore hle
  · intro h
    by_cases hp : Desk.SamePrice (request.price.or o.price) o.price
    · exact Or.inr (Int.not_le.mp fun hle => h ⟨hp, hle⟩)
    · exact Or.inl hp

namespace Turn

/-- The turn has entered an order into its queue. -/
def queues (t : Turn) (id : OrderId) : Bool :=
  match t.call, t.answer with
  | .submit _ _, .submitted (.ok (.ok r)) => r.order.id = id
  | .modify _ changed request, .modified (.ok (.modified _)) =>
    changed = id && (t.before.order? id).any fun o => request.Requeues o
  | _, _ => false

/-- The order that a turn sends into matching. -/
inductive Sends (t : Turn) : Order → Prop
  | submit {world : Surroundings} {intent : OrderIntent} :
      t.call = .submit world intent → Sends t (t.before.entering world intent)
  | modify {world : Surroundings} {id : OrderId} {request : ModifyRequest} {current o : Order} :
      t.call = .modify world id request → t.before.order? id = some current →
      request.Requeues current → o.id = id → o.side = current.side →
      o.price = request.price.or current.price → o.remaining = request.quantity → Sends t o

/-- The matching that a turn has carried out: from the book as the turn found it, but for the
incoming order itself, through the states in which the trades were made that it has told of. -/
structure Matched (t : Turn) (start final : Encounter) (moments : List (Encounter × Fill)) :
    Prop where
  sends : t.Sends start.incoming
  book : ∃ (i : Nat) (slot : Slot), t.before.slots[i]? = some slot ∧
    ∀ x, start.book.Holds x ↔ slot.book.Holds x ∧ x.id ≠ start.incoming.id
  sound : start.book.Sound
  trades : Encounter.Trades start moments final
  told : t.trades.map (fun u => (u.maker, u.taker, u.price, u.quantity)) =
    moments.map fun m => (m.2.maker.id, start.incoming.id, m.2.price, m.2.quantity)

end Turn

/-- When an order was last entered into its queue: the number of the turn, zero if there is
none. -/
def entry : List Turn → OrderId → Nat
  | [], _ => 0
  | t :: past, id => if t.queues id then past.length + 1 else entry past id

theorem entry_le (past : List Turn) (id : OrderId) : entry past id ≤ past.length := by
  induction past with
  | nil => exact Nat.le_refl _
  | cons t past ih =>
      rw [entry, List.length_cons]
      split
      · exact Nat.le_refl _
      · exact Nat.le_succ_of_le ih

/-- The maker of a trade stands first in line when the trade is made: nobody on its side asks for
less, and who asks for the same has a later `entry`. The price is the maker's own, and it suits the
incoming order. -/
def FirstInLine (past : List Turn) (e : Encounter) (fill : Fill) : Prop :=
  ∃ maker limit, e.book.Holds maker ∧ maker.id = fill.maker.id ∧
    maker.side = e.incoming.side.opposite ∧ maker.price = some limit ∧
    fill.price.SameValue limit ∧ e.incoming.Crosses fill.price ∧
    ∀ o price, e.book.Holds o → o.side = maker.side → o.id ≠ maker.id → o.price = some price →
      ¬ maker.side.Better price limit ∧
        (price.SameValue limit → entry past maker.id < entry past o.id)

/-! ## Numbers and entries -/

/-- What rests after a turn has the number it had, or was queued by the turn under a later number
than all before. -/
def Turn.Keeps (t : Turn) : Prop :=
  ∀ i x, t.after.Rests i x →
    (t.queues x.id = false ∧ ∃ o, t.before.Rests i o ∧ o.id = x.id ∧ o.sequence = x.sequence) ∨
      (t.queues x.id = true ∧ t.before.counters.arrivals < x.sequence)

/-- No turn `queues` two orders. -/
theorem Turn.queues_inj {t : Turn} {id id' : OrderId} (h : t.queues id = true)
    (h' : t.queues id' = true) : id = id' := by
  unfold queues at h h'
  split at h
  · next hcall hanswer =>
      rw [hcall, hanswer] at h'
      exact (of_decide_eq_true h).symm.trans (of_decide_eq_true h')
  · next hcall hanswer =>
      rw [hcall, hanswer] at h'
      rw [Bool.and_eq_true] at h h'
      exact (of_decide_eq_true h.1).symm.trans (of_decide_eq_true h'.1)
  · cases h

section Calls

variable {e : Engine} {world : Surroundings} {i : Nat} {slot : Slot} {d : Desk}

/-- It is enough to look at the book that has been worked on. -/
theorem Turn.keeps_of_book {t : Turn} (hslot : t.before.slots[i]? = some slot)
    (hafter : ∀ j x, t.after.Rests j x → (j = i ∧ d.book.Holds x) ∨ (j ≠ i ∧ t.before.Rests j x))
    (helse : ∀ j o, j ≠ i → t.before.Rests j o → t.queues o.id = false)
    (hbook : ∀ x, d.book.Holds x →
      (t.queues x.id = false ∧ ∃ o, slot.book.Holds o ∧ o.id = x.id ∧ o.sequence = x.sequence) ∨
        (t.queues x.id = true ∧ t.before.counters.arrivals < x.sequence)) : t.Keeps := by
  intro j x hx
  rcases hafter j x hx with ⟨rfl, hx⟩ | ⟨hj, hx⟩
  · rcases hbook x hx with ⟨hq, o, ho, hid, hseq⟩ | hnew
    · exact Or.inl ⟨hq, o, ⟨slot, hslot, ho⟩, hid, hseq⟩
    · exact Or.inr hnew
  · exact Or.inl ⟨helse j x hj hx, x, hx, rfl, rfl⟩

/-- A turn that `queues` nothing and lets nothing new rest keeps everything. -/
theorem Turn.keeps_of_none {t : Turn} (hq : ∀ id, t.queues id = false)
    (hafter : ∀ j x, t.after.Rests j x → ∃ o, t.before.Rests j o ∧ o.Same x) : t.Keeps := by
  intro j x hx
  obtain ⟨o, ho, hsame⟩ := hafter j x hx
  exact Or.inl ⟨hq x.id, o, ho, hsame.id_eq.symm, hsame.sequence_eq.symm⟩

/-- The same of one book that has been worked on. -/
theorem Turn.keeps_of_still {t : Turn} (hslot : t.before.slots[i]? = some slot)
    (hafter : ∀ j x, t.after.Rests j x → (j = i ∧ d.book.Holds x) ∨ (j ≠ i ∧ t.before.Rests j x))
    (hq : ∀ id, t.queues id = false)
    (hbook : ∀ x, d.book.Holds x → ∃ o, slot.book.Holds o ∧ o.Same x) : t.Keeps := by
  refine Turn.keeps_of_none hq fun j x hx => ?_
  rcases hafter j x hx with ⟨rfl, hheld⟩ | ⟨-, hrests⟩
  · obtain ⟨o, ho, hsame⟩ := hbook x hheld
    exact ⟨o, ⟨slot, hslot, ho⟩, hsame⟩
  · exact ⟨x, hrests, Order.Same.refl x⟩

theorem submit_keeps (hs : e.Sound) {intent : OrderIntent} {res : Except Rejection OrderResult}
    (ha : (e.submit world intent).answer = .ok res) : (e.perform (.submit world intent)).Keeps := by
  cases res with
  | error why =>
      refine Turn.keeps_of_none (fun id => ?_) fun j x hx => ?_
      · show Turn.queues ⟨_, _, .submitted (e.submit world intent).answer, _, _⟩ id = false
        rw [ha]
        rfl
      · exact ⟨x, (Engine.submit_of_rejected hs ha).unmoved.rests_iff.mp hx, Order.Same.refl x⟩
  | ok r =>
      obtain ⟨i, slot, d, hadm, hexec, hengine, -⟩ := Engine.submit_of_ok hs ha
      have hent := hadm.enters hs.toInOrder
      have hslot := Engine.slot_of_lookup? hadm.found
      have hwork := Desk.execute_worked MatchingRule.fills_priceTime world hent
      rw [hexec] at hwork
      have hid := ((Desk.executed_of_ok hent.sound hexec).same hent.sound).id_eq
      have hq (id : OrderId) : (e.perform (.submit world intent)).queues id =
          decide ((e.entering world intent).id = id) := by
        show Turn.queues ⟨_, _, .submitted (e.submit world intent).answer, _, _⟩ id = _
        rw [ha, ← hid]
        rfl
      -- The identity is free, so what rested before has another.
      have hold (j : Nat) (o : Order) (ho : e.Rests j o) :
          (e.perform (.submit world intent)).queues o.id = false := by
        rw [hq]
        refine decide_eq_false fun heq => ?_
        obtain ⟨route, hroute, -⟩ := hs.routed ho
        rw [← heq, hadm.free] at hroute
        cases hroute
      refine Turn.keeps_of_book hslot (d := d) (fun j x hx => ?_) (fun j o _ ho => hold j o ho)
        fun x hx => ?_
      · change (e.submit world intent).engine.Rests j x at hx
        rw [hengine] at hx
        exact (Engine.rests_leave (e := e.received i _) hslot).mp hx
      · rcases hwork.holds x hx with ⟨o, ho, hf⟩ | hf
        · refine Or.inl ⟨?_, o, ho, hf.same.id_eq.symm, hf.same.sequence_eq.symm⟩
          rw [hf.same.id_eq]
          exact hold i o ⟨slot, hslot, ho⟩
        · refine Or.inr ⟨?_, ?_⟩
          · rw [hq, hf.same.id_eq]
            exact decide_eq_true rfl
          · rw [hf.same.sequence_eq]
            exact Nat.lt_succ_self _

theorem cancel_keeps (hs : e.Sound) {id : OrderId} {r : CancelResult}
    (ha : (e.cancel world id).answer = .ok r) : (e.perform (.cancel world id)).Keeps := by
  refine Turn.keeps_of_none (fun _ => rfl) fun j x hx => ?_
  change (e.cancel world id).engine.Rests j x at hx
  rcases Engine.cancel_of_ok hs ha with ⟨hengine, -⟩ | ⟨i, slot, d, hl, hcancel, hengine, -⟩
  · rw [hengine] at hx
    exact ⟨x, hx, Order.Same.refl x⟩
  · have hslot := (Engine.route_of_locate? hl).1
    rw [hengine] at hx
    rcases (Engine.rests_leave hslot).mp hx with ⟨rfl, hb⟩ | ⟨-, hb⟩
    · refine ⟨x, ⟨slot, hslot, ?_⟩, Order.Same.refl x⟩
      cases hcancel with
      | absent _ => exact hb
      | dead _ _ _ hdep => exact ((hdep.holds_iff x).mp hb).1
      | found _ _ _ hdep _ _ => exact ((hdep.holds_iff x).mp hb).1
    · exact ⟨x, hb, Order.Same.refl x⟩

theorem queues_modify (hs : e.Sound) {id : OrderId} {request : ModifyRequest} {res : OrderResult}
    {o : Order} (ha : (e.modify world id request).answer = .ok (.modified res))
    (ho : e.Rests i o) (hid : o.id = id) (y : OrderId) :
    (e.perform (.modify world id request)).queues y =
      (decide (id = y) && decide (request.Requeues o)) := by
  show Turn.queues ⟨e, .modify world id request, .modified (e.modify world id request).answer,
    _, _⟩ y = _
  rw [ha]
  show (decide (id = y) && (e.order? y).any fun o => decide (request.Requeues o)) = _
  by_cases hy : id = y
  · subst hy
    rw [(Engine.order?_iff hs).mpr ⟨⟨i, ho⟩, hid⟩]
    rfl
  · simp [hy]

theorem queues_unmodified {id : OrderId} {request : ModifyRequest} {r : ModifyResult}
    (ha : (e.modify world id request).answer = .ok r) (hr : ∀ res, r ≠ .modified res)
    (y : OrderId) : (e.perform (.modify world id request)).queues y = false := by
  show Turn.queues ⟨e, .modify world id request, .modified (e.modify world id request).answer,
    _, _⟩ y = _
  rw [ha]
  cases r with
  | modified res => exact absurd rfl (hr res)
  | notFound => rfl
  | rejected why => rfl

/-- An order that `modify` sends in again is queued, and it alone. -/
theorem requeue_keeps {t : Turn} {id : OrderId} {o o' : Order} {b : Book} {r : OrderResult}
    (hs : t.before.Sound) (hslot : t.before.slots[i]? = some slot)
    (hafter : ∀ j x, t.after.Rests j x → (j = i ∧ d.book.Holds x) ∨ (j ≠ i ∧ t.before.Rests j x))
    (ho : slot.book.Holds o) (hid : o.id = id) (hq : ∀ y, t.queues y = decide (id = y))
    (hdep : Book.Departed o slot.book b) (hsame : o'.id = o.id)
    (hent : Desk.Enters { o' with sequence := t.before.counters.arrivals + 1 }
      ((t.before.desk slot.book).rearrived b))
    (hexec : Desk.execute .priceTime world { o' with sequence := t.before.counters.arrivals + 1 }
      ((t.before.desk slot.book).rearrived b) = .ok r d) : t.Keeps := by
  have hwork := Desk.execute_worked MatchingRule.fills_priceTime world hent
  rw [hexec] at hwork
  refine Turn.keeps_of_book hslot hafter (fun j x hj hx => ?_) fun x hx => ?_
  · rw [hq]
    refine decide_eq_false fun heq => hj ?_
    exact hs.slot_unique hx ⟨slot, hslot, ho⟩ (heq.symm.trans hid.symm)
  · rcases hwork.holds x hx with ⟨y, hy, hf⟩ | hf
    · obtain ⟨hy, hne⟩ := (hdep.holds_iff y).mp hy
      refine Or.inl ⟨?_, y, hy, hf.same.id_eq.symm, hf.same.sequence_eq.symm⟩
      rw [hq, hf.same.id_eq]
      exact decide_eq_false fun heq => hne (heq.symm.trans hid.symm)
    · refine Or.inr ⟨?_, ?_⟩
      · rw [hq, hf.same.id_eq]
        exact decide_eq_true (hid.symm.trans hsame.symm)
      · rw [hf.same.sequence_eq]
        exact Nat.lt_succ_self _

theorem modify_keeps (hs : e.Sound) (hl : e.Lively) {id : OrderId} {request : ModifyRequest}
    {r : ModifyResult} (ha : (e.modify world id request).answer = .ok r) :
    (e.perform (.modify world id request)).Keeps := by
  rcases Engine.modify_of_ok hs ha with
    ⟨hengine, -, hr⟩ | ⟨i, slot, d, hrev, hmod, hengine, -⟩
  · refine Turn.keeps_of_none (queues_unmodified ha hr) fun j x hx => ?_
    change (e.modify world id request).engine.Rests j x at hx
    rw [hengine] at hx
    exact ⟨x, hx, Order.Same.refl x⟩
  · have hslot := (Engine.route_of_locate? hrev.found).1
    have hafter (j : Nat) (x : Order)
        (hx : (e.perform (.modify world id request)).after.Rests j x) :
        (j = i ∧ d.book.Holds x) ∨ (j ≠ i ∧ e.Rests j x) := by
      change (e.modify world id request).engine.Rests j x at hx
      rw [hengine] at hx
      exact (Engine.rests_leave hslot).mp hx
    -- An order that stays in its place is not queued again.
    have hstill {o : Order} (res : OrderResult) (hres : r = .modified res)
        (ho : slot.book.Holds o) (hid : o.id = id)
        (hprice : Desk.SamePrice (request.price.or o.price) o.price)
        (hle : request.quantity ≤ o.remaining) (y : OrderId) :
        (e.perform (.modify world id request)).queues y = false := by
      have hnot : ¬ request.Requeues o := fun h => requeues_iff.mp h ⟨hprice, hle⟩
      rw [queues_modify hs (hres ▸ ha) ⟨slot, hslot, ho⟩ hid, decide_eq_false hnot,
        Bool.and_false]
    cases hmod with
    | absent _ =>
        exact Turn.keeps_of_still hslot hafter (queues_unmodified ha fun _ h => by cases h)
          fun x hx => ⟨x, hx, Order.Same.refl x⟩
    | @same o ho hid hprice hq =>
        exact Turn.keeps_of_still hslot hafter (hstill _ rfl ho hid hprice (Int.le_of_eq hq))
          fun x hx => ⟨x, hx, Order.Same.refl x⟩
    | @lessened o o' u n d' ho hid hprice hlt _ hset hrew _ _ _ =>
        refine Turn.keeps_of_still hslot hafter (hstill _ rfl ho hid hprice (Int.le_of_lt hlt))
          fun x hx => ?_
        rcases (hrew.holds_iff x).mp hx with rfl | ⟨hx, -⟩
        · exact ⟨o, ho, Order.same_of_setRemaining hset⟩
        · exact ⟨x, hx, Order.Same.refl x⟩
    | @requeued o o' b res d' ho hid hnot _ hdep hset hexec =>
        have hrests : e.Rests i o := ⟨slot, hslot, ho⟩
        have hent := (hs.ready hl.live hslot).enters ho
          (Int.le_of_lt (Engine.passed_of_checkRequest hrev.checked).1) hdep hset
        refine requeue_keeps hs hslot hafter ho hid (fun y => ?_) hdep
          (Order.same_of_setRemaining hset).id_eq hent hexec
        rw [queues_modify hs ha hrests hid, decide_eq_true (requeues_iff.mpr hnot), Bool.and_true]

end Calls

/-- The numbers of the resting orders stand as `entry` does. -/
def Ranked (past : List Turn) (e : Engine) : Prop :=
  ∀ i j o o', e.Rests i o → e.Rests j o' → o.sequence < o'.sequence →
    entry past o.id < entry past o'.id

theorem Ranked.turn {past : List Turn} {t : Turn} (h : Ranked past t.before) (hk : t.Keeps)
    (hs : t.before.Sound) (hs' : t.after.Sound) : Ranked (t :: past) t.after := by
  intro i j x x' hx hx' hlt
  rw [entry, entry]
  rcases hk i x hx with ⟨hq, o, ho, hid, hseq⟩ | ⟨hq, hlate⟩
  · rcases hk j x' hx' with ⟨hq', o', ho', hid', hseq'⟩ | ⟨hq', -⟩
    · rw [hq, hq', ← hid, ← hid']
      exact h i j o o' ho ho' (by omega)
    · rw [hq, hq', if_pos rfl]
      exact Nat.lt_succ_of_le (entry_le past x.id)
  · rcases hk j x' hx' with ⟨-, o', ho', -, hseq'⟩ | ⟨hq', -⟩
    · have hearly := hs.early ho'
      omega
    · -- The same order cannot have two numbers.
      have hid := Turn.queues_inj hq hq'
      obtain rfl := hs'.slot_unique hx hx' hid
      obtain ⟨slot, hslot, ho⟩ := hx
      obtain ⟨slot', hslot', ho'⟩ := hx'
      rw [hslot] at hslot'
      cases hslot'
      rw [(hs'.book hslot).eq_of_id ho ho' hid] at hlt
      exact absurd hlt (Nat.lt_irrefl _)

theorem perform_orderly {e : Engine} (hs : e.Sound) (hl : e.Lively) (call : Call)
    (hok : (e.perform call).answer.fault? = none) :
    (e.perform call).after.Sound ∧ (e.perform call).after.Lively ∧ (e.perform call).Keeps := by
  refine Engine.perform_of_answered (P := fun t => t.after.Sound ∧ t.after.Lively ∧ t.Keeps)
    ?_ ?_ ?_ ?_ hok
  · intro config
    refine ⟨Engine.addInstrument_sound hs config, hl.addInstrument config, ?_⟩
    refine Turn.keeps_of_none (fun _ => rfl) fun j x hx => ?_
    exact ⟨x, (Engine.addInstrument_rests e config j x).mp hx, Order.Same.refl x⟩
  · intro world intent res ha
    exact ⟨Engine.submit_sound hs world intent, hl.submit hs ha, submit_keeps hs ha⟩
  · intro world id res ha
    exact ⟨Engine.cancel_sound hs world id, hl.cancel hs ha, cancel_keeps hs ha⟩
  · intro world id request res ha
    exact ⟨Engine.modify_sound hs hl.live world id request, hl.modify hs ha, modify_keeps hs hl ha⟩

/-- A run without faults has kept its engine `Sound` and its numbers in the order of entries. -/
theorem History.orderly {past : List Turn} {e : Engine} (h : Run past e)
    (hok : ∀ t ∈ past, t.answer.fault? = none) : e.Sound ∧ e.Lively ∧ Ranked past e := by
  induction h with
  | start =>
      refine ⟨Engine.sound_empty, fun i slot hslot => (by cases hslot), fun i j o o' ho => ?_⟩
      obtain ⟨slot, hslot, -⟩ := ho
      cases hslot
  | @turn past e call _ ih =>
      obtain ⟨hs, hl, hr⟩ := ih fun t ht => hok t (List.mem_cons_of_mem _ ht)
      obtain ⟨hs', hl', hk⟩ := perform_orderly hs hl call (hok _ List.mem_cons_self)
      have hbefore := before_perform e call
      exact ⟨hs', hl', Ranked.turn (hbefore.symm ▸ hr) hk (hbefore.symm ▸ hs) hs'⟩

/-- What holds at the start and is kept by every call that is answered holds after every run
without faults. -/
theorem History.invariant {P : List Turn → Engine → Prop} (hstart : P [] (.empty .priceTime))
    (hstep : ∀ (past : List Turn) (e : Engine) (call : Call), P past e → e.Sound → e.Lively →
      (e.perform call).answer.fault? = none → P (e.perform call :: past) (e.perform call).after)
    {past : List Turn} {e : Engine} (h : Run past e) (hok : Faultless past) : P past e := by
  induction h with
  | start => exact hstart
  | @turn past e call h ih =>
      have hpast : Faultless past := fun t ht => hok t (List.mem_cons_of_mem _ ht)
      obtain ⟨hs, hl, -⟩ := h.orderly hpast
      exact hstep past e call (ih hpast) hs hl (hok _ List.mem_cons_self)

/-! ## The trades of a turn -/

theorem firstInLine_of_matched {past : List Turn} {t : Turn} {start final : Encounter}
    {moments : List (Encounter × Fill)} (h : t.Matched start final moments)
    (hr : Ranked past t.before) {m : Encounter × Fill} (hm : m ∈ moments) :
    FirstInLine past m.1 m.2 := by
  obtain ⟨hw, -, next, hstep⟩ := h.trades.moment h.sound hm
  obtain ⟨level, post, maker, ys, total, hdeal⟩ := hstep.deal hw.sound
  obtain ⟨hside, limit, hlimit, hprice, hfirst⟩ := hdeal.first hw.sound
  obtain ⟨i, slot, hslot, hbook⟩ := h.book
  refine ⟨maker, limit, hdeal.holds hw.sound, (Order.fill_same hdeal.maker_fill).id_eq.symm,
    hside, hlimit, hprice, hstep.crosses, ?_⟩
  intro o price ho hos hid hp
  have hne : o ≠ maker := fun heq => hid (heq ▸ rfl)
  obtain ⟨p, p', hlimit', hp', hbefore⟩ := hfirst o ho hos hne
  rw [hlimit] at hlimit'
  rw [hp] at hp'
  cases hlimit'
  cases hp'
  rw [Side.better_iff, Side.sameValue_iff maker.side]
  refine ⟨by omega, fun hsame => ?_⟩
  -- Both have rested since before the turn, under the numbers they still have.
  obtain ⟨y, hy, hfy⟩ := hw.from_fills maker (hdeal.holds hw.sound)
  obtain ⟨z, hz, hfz⟩ := hw.from_fills o ho
  have hseq : y.sequence < z.sequence := by
    rw [← hfy.same.sequence_eq, ← hfz.same.sequence_eq]
    omega
  rw [hfy.same.id_eq, hfz.same.id_eq]
  exact hr i i y z ⟨slot, hslot, ((hbook y).mp hy).1⟩ ⟨slot, hslot, ((hbook z).mp hz).1⟩ hseq

section Matched

variable {e : Engine} {world : Surroundings}

theorem submit_matched (hs : e.Sound) {intent : OrderIntent} {res : Except Rejection OrderResult}
    (ha : (e.submit world intent).answer = .ok res) :
    (e.perform (.submit world intent)).trades = [] ∨
      ∃ start final moments, (e.perform (.submit world intent)).Matched start final moments := by
  cases res with
  | error why =>
      refine Or.inl (List.filterMap_eq_nil_iff.mpr fun ev hev => ?_)
      obtain ⟨u, rfl, -⟩ := (Engine.submit_of_rejected hs ha).events ev hev
      rfl
  | ok r =>
      obtain ⟨i, slot, d, hadm, hexec, -, hevents⟩ := Engine.submit_of_ok hs ha
      have hent := hadm.enters hs.toInOrder
      have hslot := Engine.slot_of_lookup? hadm.found
      have htrades : (e.perform (.submit world intent)).trades =
          d.emitted.filterMap Event.trade? := by
        show (e.submit world intent).events.filterMap _ = _
        rw [hevents]
      rw [htrades]
      rcases (Desk.executed_of_ok hent.sound hexec).trades_eq hent.sound rfl with
        hnone | ⟨moments, final, hm, htold⟩
      · exact Or.inl hnone
      · refine Or.inr ⟨_, final, moments, .submit rfl, ⟨i, slot, hslot, fun x => ?_⟩, hent.sound,
          hm, by rw [htrades]; exact htold⟩
        refine ⟨fun hx => ⟨hx, fun hid => ?_⟩, And.left⟩
        exact hent.free ⟨x, hx, hid⟩

theorem modify_matched (hs : e.Sound) (hl : e.Lively) {id : OrderId} {request : ModifyRequest}
    {r : ModifyResult} (ha : (e.modify world id request).answer = .ok r) :
    (e.perform (.modify world id request)).trades = [] ∨
      ∃ start final moments,
        (e.perform (.modify world id request)).Matched start final moments := by
  rcases Engine.modify_of_ok hs ha with
    ⟨-, hevents, -⟩ | ⟨i, slot, d, hrev, hmod, -, hevents⟩
  · refine Or.inl ?_
    show (e.modify world id request).events.filterMap _ = _
    rw [hevents]
    rfl
  · have hslot := (Engine.route_of_locate? hrev.found).1
    have htrades : (e.perform (.modify world id request)).trades =
        d.emitted.filterMap Event.trade? := by
      show (e.modify world id request).events.filterMap _ = _
      rw [hevents]
    rw [htrades]
    cases hmod with
    | absent _ => exact Or.inl rfl
    | same _ _ _ _ => exact Or.inl rfl
    | lessened _ _ _ _ _ _ _ _ hemitted _ =>
        rw [hemitted]
        exact Or.inl rfl
    | @requeued o o' b res d' ho hid hnot _ hdep hset hexec =>
        have hrests : e.Rests i o := ⟨slot, hslot, ho⟩
        have hent := (hs.ready hl.live hslot).enters ho
          (Int.le_of_lt (Engine.passed_of_checkRequest hrev.checked).1) hdep hset
        rcases (Desk.executed_of_ok hent.sound hexec).trades_eq hent.sound rfl with
          hnone | ⟨moments, final, hm, htold⟩
        · exact Or.inl hnone
        · obtain ⟨_, _, -, -, rfl⟩ := Order.setRemaining_eq_ok hset
          refine Or.inr ⟨_, final, moments, ?_, ⟨i, slot, hslot, hdep.holds_iff⟩, hent.sound, hm,
            by rw [htrades]; exact htold⟩
          refine .modify rfl ((Engine.order?_iff hs).mpr ⟨⟨i, hrests⟩, hid⟩) ?_ hid rfl rfl rfl
          exact requeues_iff.mpr hnot

/-- Whatever a turn tells of has come about in one matching, and is `Matched`. -/
theorem perform_matched (hs : e.Sound) (hl : e.Lively) (call : Call)
    (hok : (e.perform call).answer.fault? = none) :
    (e.perform call).trades = [] ∨
      ∃ start final moments, (e.perform call).Matched start final moments := by
  have hanswered := Engine.answered hok
  cases call with
  | addInstrument config =>
      refine Or.inl ?_
      show (e.addInstrument config).events.filterMap _ = _
      rw [Engine.addInstrument_events]
      rfl
  | submit world intent =>
      obtain ⟨res, ha⟩ := hanswered
      exact submit_matched hs ha
  | cancel world id =>
      obtain ⟨res, ha⟩ := hanswered
      refine Or.inl ?_
      show (e.cancel world id).events.filterMap _ = _
      rcases Engine.cancel_of_ok hs ha with
        ⟨-, hevents, -⟩ | ⟨i, slot, d, -, hcancel, -, hevents⟩
      · rw [hevents]
        rfl
      · rw [hevents]
        cases hcancel with
        | absent _ => rfl
        | dead _ _ _ _ => rfl
        | found _ _ _ _ _ hemitted _ _ =>
            rw [hemitted]
            rfl
  | modify world id request =>
      obtain ⟨res, ha⟩ := hanswered
      exact modify_matched hs hl ha

end Matched

/-- Strict price-time priority. In a run without faults every trade that a turn tells of was made
with the order `FirstInLine`, at its price. -/
theorem strict_price_time_priority {past : List Turn} {t : Turn} {e : Engine}
    (h : Run (t :: past) e) (hok : ∀ x ∈ t :: past, x.answer.fault? = none) :
    t.trades = [] ∨ ∃ start final moments, t.Matched start final moments ∧
      ∀ m ∈ moments, FirstInLine past m.1 m.2 := by
  cases h with
  | @turn _ e call h =>
      obtain ⟨hs, hl, hr⟩ := h.orderly fun x hx => hok x (List.mem_cons_of_mem _ hx)
      rcases perform_matched hs hl call (hok _ List.mem_cons_self) with
        hnone | ⟨start, final, moments, hm⟩
      · exact Or.inl hnone
      · have hr' : Ranked past (e.perform call).before := by
          rw [before_perform]
          exact hr
        exact Or.inr ⟨start, final, moments, hm, fun m hmem => firstInLine_of_matched hm hr' hmem⟩

/-- Three sellers ask for 2, for 1 and again for 1, and the second of them gives up half of what it
offers. -/
def sellers : List Call :=
  [.addInstrument (.plain "X"),
    .submit (.handing 1) (.limit "X" .sell (.scaled 2 0) 1),
    .submit (.handing 2) (.limit "X" .sell 1 (.scaled 2 0)),
    .submit (.handing 3) (.limit "X" .sell 1 1),
    .modify (.handing 0) ⟨.ofNat 2⟩ ⟨none, 1⟩]

/-- Someone buys one and a half at 2 or less. -/
def buyer : Call :=
  .submit (.handing 4) (.limit "X" .buy (.scaled 2 0) (.scaled 15 1))

/-- The second seller keeps its place and trades first, then the third. -/
theorem strict_price_time_priority_sellers :
    (((Engine.empty .priceTime).follow [] sellers).2.perform buyer).trades.map Trade.maker =
        [⟨⟨2, by decide⟩⟩, ⟨⟨3, by decide⟩⟩] ∧
      ∃ start final moments,
        (((Engine.empty .priceTime).follow [] sellers).2.perform buyer).Matched
          start final moments ∧
          ∀ m ∈ moments, FirstInLine ((Engine.empty .priceTime).follow [] sellers).1 m.1 m.2 := by
  have hmakers :
      (((Engine.empty .priceTime).follow [] sellers).2.perform buyer).trades.map Trade.maker =
        [⟨⟨2, by decide⟩⟩, ⟨⟨3, by decide⟩⟩] := by
    decide +kernel
  refine ⟨hmakers, ?_⟩
  rcases strict_price_time_priority ((History.start.follow sellers).turn buyer)
    (by decide +kernel) with hnone | hsome
  · rw [hnone] at hmakers
    cases hmakers
  · exact hsome

end Bourse
