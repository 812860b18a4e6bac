import Bourse.Proofs.Engine.Told
import Bourse.Proofs.Matching.Likeness

/-!
# What is alike is executed alike

If two orders that are alike in a `Likeness` are executed at desks with the same book, the
executions tell the same story and leave books that are alike (`Executed.like`). What
numbers and stamps their events bear is no part of the story, and neither are the routes
of other books; the `Counters` are only said to keep `Apace`.
-/

namespace Bourse

/-- Two trades on the same terms between the same orders. -/
structure Trade.Alike (t t' : Trade) : Prop where
  symbol_eq : t'.symbol = t.symbol
  price_eq : t'.price = t.price
  quantity_eq : t'.quantity = t.quantity
  maker_eq : t'.maker = t.maker
  taker_eq : t'.taker = t.taker
  takerSide_eq : t'.takerSide = t.takerSide

/-- Two events that tell the same, as far as a `Likeness` goes. -/
inductive Event.Like (L : Likeness) : Event → Event → Prop
  | trade {t t' : Trade} : t.Alike t' → Like L (.trade t) (.trade t')
  | update {u u' : OrderUpdate} : L.Tells u u' → Like L (.update u) (.update u')

theorem Likeness.cancelled (L : Likeness) {o x : Order} (h : L.Alike o x) :
    L.Alike { o with status := .cancelled } { x with status := .cancelled } := by
  have hstand := L.stand h o.remaining .cancelled
  rw [← (L.kin h).remaining_eq] at hstand
  exact (L.kin h).remaining_eq ▸ hstand

/-- From one count to the next it is as far as it is elsewhere from one to another. -/
structure Counters.Apace (c d c' d' : Counters) : Prop where
  arrivals : d'.arrivals + c.arrivals = d.arrivals + c'.arrivals
  events : d'.events + c.events = d.events + c'.events
  matchings : d'.matchings + c.matchings = d.matchings + c'.matchings

theorem Counters.Apace.refl (c c' : Counters) : Counters.Apace c c c' c' :=
  ⟨Nat.add_comm _ _, Nat.add_comm _ _, Nat.add_comm _ _⟩

theorem Counters.Apace.trans {c₁ c₂ c₃ d₁ d₂ d₃ : Counters} (h : Counters.Apace c₁ c₂ d₁ d₂)
    (k : Counters.Apace c₂ c₃ d₂ d₃) : Counters.Apace c₁ c₃ d₁ d₃ := by
  obtain ⟨harrivals, hevents, hmatchings⟩ := h
  obtain ⟨karrivals, kevents, kmatchings⟩ := k
  exact ⟨by omega, by omega, by omega⟩

/-- One more has arrived. -/
theorem Counters.apace_arrival (c c' : Counters) :
    Counters.Apace c { c with arrivals := c.arrivals + 1 } c'
      { c' with arrivals := c'.arrivals + 1 } :=
  ⟨by dsimp only; omega, Nat.add_comm _ _, Nat.add_comm _ _⟩

/-- One more has been told. -/
theorem Counters.apace_event (c c' : Counters) :
    Counters.Apace c { c with events := c.events + 1 } c' { c' with events := c'.events + 1 } :=
  ⟨Nat.add_comm _ _, by dsimp only; omega, Nat.add_comm _ _⟩

namespace Desk

variable {L : Likeness} {world world' : Surroundings} {o x : Order} {d d' c c' : Desk}
  {r r' : OrderResult}

theorem tradeOf_alike (world world' : Surroundings) (h : o.Kin x) (fill : Fill) (n n' : Nat) :
    (tradeOf world o fill n).Alike (tradeOf world' x fill n') :=
  ⟨h.symbol_eq, rfl, rfl, rfl, h.id_eq, h.side_eq⟩

/-- The same fills make the same story, told of either order. -/
theorem Narrates.like {fills : List Fill} {trades trades' : List Trade}
    {events events' : List Event} (h : Narrates world o fills trades events) (hkin : o.Kin x)
    (h' : Narrates world' x fills trades' events') (L : Likeness) :
    List.Forall₂ Trade.Alike trades trades' ∧ List.Forall₂ (Event.Like L) events events' := by
  induction h generalizing trades' events' with
  | none =>
      cases h'
      exact ⟨.nil, .nil⟩
  | some hu _ ih =>
      cases h' with
      | some hu' hrest =>
          obtain ⟨htrades, hevents⟩ := ih hrest
          have halike := tradeOf_alike world world' hkin
          exact ⟨.cons (halike _ _ _) htrades,
            .cons (.trade (halike _ _ _)) (.cons (.update (L.tells (L.refl _) hu hu')) hevents)⟩

theorem waits_kin (h : o.Kin x) : Waits x ↔ Waits o := by
  unfold Waits
  rw [h.orderType_eq, h.timeInForce_eq]

theorem mustKill_kin (h : o.Kin x) (hbook : c.book = d.book) : c.MustKill x ↔ d.MustKill o := by
  unfold MustKill
  rw [h.timeInForce_eq, h.side_eq, h.price_eq, h.remaining_eq, hbook]

/-- What is left of either order is `Settled` in the same way. -/
theorem Settled.like {e e' : Encounter} {o' x' : Order} {b b' : Book} (h : Settled e o' b)
    (h' : Settled e' x' b') (halike : L.Alike e.incoming e'.incoming) (hbook : e'.book = e.book)
    (habreast : e.incoming.Abreast e'.incoming (e.book.ladder e.incoming.side).orders) :
    L.Alike o' x' ∧ b.Like L b' ∧
      (e'.incoming.sequence = e.incoming.sequence → b'.index = b.index) := by
  have hkin := L.kin halike
  cases h with
  | done hle =>
      cases h' with
      | done _ =>
          rw [hbook]
          exact ⟨halike, .refl _ _, fun _ => rfl⟩
      | dropped hpos _ _ => exact absurd (hkin.remaining_eq ▸ hpos) (Int.not_lt.mpr hle)
      | rests hpos _ _ => exact absurd (hkin.remaining_eq ▸ hpos) (Int.not_lt.mpr hle)
  | dropped hpos hnot _ =>
      cases h' with
      | done hle => exact absurd hpos (Int.not_lt.mpr (hkin.remaining_eq ▸ hle))
      | dropped _ _ _ =>
          rw [hbook]
          exact ⟨L.cancelled halike, .refl _ _, fun _ => rfl⟩
      | rests _ hrests _ => exact absurd ((waits_kin hkin).mp hrests) hnot
  | rests hpos hrests hins =>
      cases h' with
      | done hle => exact absurd hpos (Int.not_lt.mpr (hkin.remaining_eq ▸ hle))
      | dropped _ hnot _ => exact absurd ((waits_kin hkin).mpr hrests) hnot
      | rests _ _ hins' =>
          obtain ⟨b₂, hins₂, hlike, hindex⟩ := Book.insert_like halike habreast hins
          rw [hbook, hins₂] at hins'
          cases hins'
          exact ⟨halike, hlike, hindex⟩

/-- Two executions that tell the same and leave the same, as far as a `Likeness` goes. -/
structure Like (L : Likeness) (r : OrderResult) (d : Desk) (r' : OrderResult) (d' : Desk) :
    Prop where
  order : L.Alike r.order r'.order
  trades : List.Forall₂ Trade.Alike r.trades r'.trades
  events : List.Forall₂ (Event.Like L) d.emitted d'.emitted
  book : d.book.Like L d'.book

/-- Filling orders changes no numbers, so who was `Abreast` still is. -/
theorem abreast_worn {b b' : Book} {side : Side} {o' x' : Order}
    (h : o.Abreast x (b.ladder side).orders) (hw : Book.Worn b b')
    (ho : o'.sequence = o.sequence) (hx : x'.sequence = x.sequence) :
    o'.Abreast x' (b'.ladder side).orders := by
  intro y hy
  obtain ⟨z, hz, hf⟩ := hw.from_fills y (hw.sound.holds_of_mem hy)
  have hside : z.side = side := hf.same.side_eq.symm.trans (hw.sound.side_of_mem hy)
  have hmem : z ∈ (b.ladder side).orders := hside ▸ hz
  rw [ho, hx, hf.same.sequence_eq]
  exact h z hmem

theorem Executed.like (h : Executed world o d r d') (h' : Executed world' x c r' c')
    (halike : L.Alike o x) (hbook : c.book = d.book) (hs : d.book.Sound) (hd : d.emitted = [])
    (hc : c.emitted = []) (habreast : o.Abreast x (d.book.ladder o.side).orders) :
    Like L r d' r' c' ∧ (x.sequence = o.sequence → c'.book.index = d'.book.index) := by
  have hkill := mustKill_kin (L.kin halike) hbook
  cases h with
  | killed hk _ hb hu he _ _ =>
      cases h' with
      | killed _ _ hb' hu' he' _ _ =>
          refine ⟨⟨L.cancelled halike, .nil, ?_, ?_⟩, fun _ => by rw [hb, hb', hbook]⟩
          · rw [he, he', hd, hc]
            exact .cons (.update (L.tells (L.cancelled halike) hu hu')) .nil
          · rw [hb, hb', hbook]
            exact .refl _ _
      | matched hnot _ _ _ _ _ _ _ _ _ _ => exact absurd (hkill.mpr hk) hnot
  | @matched moments final o' _ _ _ _ _ hnot hm _ hstory hset hu he _ _ _ hrun =>
      cases h' with
      | killed hk _ _ _ _ _ _ => exact absurd (hkill.mp hk) hnot
      | @matched moments' final' x' _ _ _ _ _ _ hm' _ hstory' hset' hu' he' _ _ _ hrun' =>
          obtain ⟨y, hy, hfinal⟩ := Encounter.priceTime_like halike hrun
          rw [hbook, hy] at hrun'
          injection hrun' with hfills heq
          subst heq
          rw [← hfills] at hstory'
          have ho := (hm.filled hs).same
          have hx := (hm'.filled (hbook ▸ hs)).same
          have hwaiting := abreast_worn habreast (hm.worn hs) ho.sequence_eq hx.sequence_eq
          rw [← ho.side_eq] at hwaiting
          obtain ⟨hsettled, hlike, hindex⟩ := hset.like hset' hfinal rfl hwaiting
          obtain ⟨htrades, hevents⟩ := hstory.like (L.kin hfinal) hstory' L
          refine ⟨⟨hsettled, htrades, ?_, hlike⟩, fun hseq => hindex ?_⟩
          · rw [he, he', hd, hc]
            exact List.rel_append hevents (.cons (.update (L.tells hsettled hu hu')) .nil)
          · exact hx.sequence_eq.trans (hseq.trans ho.sequence_eq.symm)

/-- Where one of two orders that are alike is `Executed`, the other is. -/
theorem Executed.like_isOk (h : Executed world o d r d') (world' : Surroundings)
    (halike : L.Alike o x) (hbook : c.book = d.book) (hent : Enters x c)
    (hsized : ∀ y, c.book.Holds y → y.Sized)
    (habreast : o.Abreast x (d.book.ladder o.side).orders) :
    ∃ r' c', execute .priceTime world' x c = .ok r' c' := by
  have hkin := L.kin halike
  have hs : d.book.Sound := hbook ▸ hent.sound
  cases h with
  | killed hk _ _ _ _ _ _ =>
      obtain ⟨u, -, hu⟩ := kill_isOk world' hent.live hent.sized c
      rw [execute_run, if_pos ((mustKill_kin hkin hbook).mpr hk), hu]
      exact ⟨_, _, rfl⟩
  | matched _ hm _ _ hset _ _ _ _ _ hrun =>
      obtain ⟨y, hy, hfinal⟩ := Encounter.priceTime_like halike hrun
      rw [← hbook] at hy
      have hlast := L.kin hfinal
      refine execute_isOk world' hent hsized hy fun hpos hwaits => ?_
      generalize d'.book = b at hset
      cases hset with
      | done hle => exact absurd (hlast.remaining_eq ▸ hpos) (Int.not_lt.mpr hle)
      | dropped _ hnot _ => exact absurd ((waits_kin hlast).mp hwaits) hnot
      | rests _ _ hins =>
          obtain ⟨moments', hm', -, -⟩ := Encounter.trades_of_priceTime hy hent.sound
          have ho := (hm.filled hs).same
          have hx := (hm'.filled hent.sound).same
          have hwaiting := abreast_worn habreast (hm.worn hs) ho.sequence_eq hx.sequence_eq
          rw [← ho.side_eq] at hwaiting
          obtain ⟨b₂, hins₂, -⟩ := Book.insert_like hfinal hwaiting hins
          exact ⟨b₂, hins₂⟩

/-- Where as often matched and as many events told, the same has been counted. -/
theorem Counted.apace {asked : Nat} (h : Counted asked d d') (h' : Counted asked c c')
    (hlength : c'.emitted.length + d.emitted.length = d'.emitted.length + c.emitted.length) :
    Counters.Apace d.counters d'.counters c.counters c'.counters := by
  have hevents := h.events_eq
  have hevents' := h'.events_eq
  refine ⟨?_, by omega, ?_⟩
  · rw [h.arrivals_eq, h'.arrivals_eq, Nat.add_comm]
  · rw [h.matchings_eq, h'.matchings_eq]
    omega

/-- The same has been counted in executions of orders that are alike. -/
theorem Executed.counters_like (h : Executed world o d r d') (h' : Executed world' x c r' c')
    (hkin : o.Kin x) (hbook : c.book = d.book)
    (hlength : c'.emitted.length + d.emitted.length = d'.emitted.length + c.emitted.length) :
    Counters.Apace d.counters d'.counters c.counters c'.counters := by
  have hsecond := h'.counted
  simp only [mustKill_kin hkin hbook] at hsecond
  exact h.counted.apace hsecond hlength

end Desk

end Bourse
