import Bourse.Proofs.Matching
import Bourse.Proofs.Engine.Reports

/-!
# What an operation leaves on its desk

An operation may stop anywhere, and `Worked` says what can be relied on all the same: the
book is sound, what rests in it was there before or has just come in, and the routes of
everything that rests are those it had. An order that comes in (`Enters`) rests only if
its operation has come to its end, so no failed operation leaves an order behind that
nobody was told of. An operation that has come to its end is `Executed`, and all that is
known of it afterwards is read off that.
-/

namespace Bourse

namespace Desk

/-- The order may wait in the book. -/
def Waits (o : Order) : Prop := o.orderType = .limit ∧ o.timeInForce = .goodTillCancel

instance (o : Order) : Decidable (Waits o) := by
  unfold Waits
  infer_instance

/-- The desk once `matchOrder` has asked the matching rule. -/
def matched (d : Desk) (b : Book) : Desk :=
  { d with book := b, counters := { d.counters with matchings := d.counters.matchings + 1 } }

theorem matchOrder_run (rule : MatchingRule) (order : Order) (d : Desk) :
    matchOrder rule order d =
      match rule.run (d.counters.matchings + 1) ⟨order, d.book⟩ with
      | .error f e => .error f (d.matched e.book)
      | .ok fills e => .ok (e.incoming, fills) (d.matched e.book) := by
  unfold matchOrder
  rw [Attempt.run_bind, Attempt.run_get]
  dsimp only
  rw [Attempt.run_focus, Attempt.run_bind]
  cases rule.run (d.counters.matchings + 1) ⟨order, d.book⟩ <;> rfl

theorem matchOrder_priceTime (order : Order) (d : Desk) :
    matchOrder .priceTime order d =
      match Encounter.priceTime ⟨order, d.book⟩ with
      | .error f e => .error f (d.matched e.book)
      | .ok fills e => .ok (e.incoming, fills) (d.matched e.book) := matchOrder_run _ _ _

theorem orViolate_cancel_run (o : Order) (d : Desk) :
    orViolate o.cancel d =
      if o.status.isLive then .ok { o with status := .cancelled } d
      else .error (.violation (.illegalTransition o.status .cancel)) d := by
  rw [Order.cancel_eq]
  split <;> rfl

theorem onBook_run {α : Type} (act : Attempt Book α) (d : Desk) :
    onBook act d =
      match act d.book with
      | .error f b => .error f { d with book := b }
      | .ok a b => .ok a { d with book := b } := by
  unfold onBook
  rw [Attempt.run_bind, Attempt.run_get]
  dsimp only
  rw [Attempt.run_focus]
  cases act d.book <;> rfl

theorem settle_run (o : Order) (d : Desk) :
    settle o d =
      if 0 < o.remaining then
        if Waits o then
          match Book.insert o d.book with
          | .error f b => .error f { d with book := b }
          | .ok _ b => .ok o { d with book := b }
        else orViolate o.cancel d
      else .ok o d := by
  unfold settle
  split
  · by_cases hw : o.orderType = .limit ∧ o.timeInForce = .goodTillCancel
    · have hwaits : Waits o := hw
      rw [if_pos hw, if_pos hwaits, Attempt.run_bind, onBook_run]
      cases Book.insert o d.book <;> rfl
    · have hwaits : ¬ Waits o := hw
      rw [if_neg hw, if_neg hwaits]
  · rfl

/-- The desk without the route of an order that is done for. -/
def closed (d : Desk) (o : Order) : Desk := if o.status.isTerminal then d.release o.id else d

theorem closed_same (d : Desk) (o : Order) :
    (d.closed o).book = d.book ∧ (d.closed o).emitted = d.emitted ∧
      (d.closed o).counters = d.counters := by
  unfold closed
  split <;> exact ⟨rfl, rfl, rfl⟩

theorem closed_released {d : Desk} {o : Order} {id : OrderId}
    (h : d.routes.get? id = none ∨ (o.status.isTerminal = true ∧ o.id = id)) :
    (d.closed o).routes.get? id = none := by
  unfold closed
  split
  · rcases h with hnone | ⟨-, rfl⟩
    · exact Table.get?_erase_of_none hnone _
    · exact Table.get?_erase_self _ _
  · next hlive => exact h.resolve_right fun hterminal => hlive hterminal.1

theorem kill_run (world : Surroundings) (o : Order) (d : Desk) :
    kill world o d =
      match orViolate o.cancel d with
      | .error f d' => .error f d'
      | .ok o' d₁ =>
        match emitUpdate world o' (d₁.release o'.id) with
        | .error f d' => .error f d'
        | .ok _ d' => .ok ⟨o', []⟩ d' := by
  unfold kill
  rw [Attempt.run_bind]
  cases orViolate o.cancel d with
  | error f d' => rfl
  | ok o' d₁ =>
      dsimp only
      rw [Attempt.run_bind, Attempt.run_modify]
      dsimp only
      rw [Attempt.run_bind]
      cases emitUpdate world o' (d₁.release o'.id) <;> rfl

theorem execute_run (rule : MatchingRule) (world : Surroundings) (o : Order) (d : Desk) :
    execute rule world o d =
      if d.MustKill o then kill world o d
      else
        match matchOrder rule o d with
        | .error f d' => .error f d'
        | .ok (taker, fills) d₁ =>
          match fills.mapM (report world taker) d₁ with
          | .error f d' => .error f d'
          | .ok trades d₂ =>
            match settle taker d₂ with
            | .error f d' => .error f d'
            | .ok o' d₃ =>
              match emitUpdate world o' (d₃.closed o') with
              | .error f d' => .error f d'
              | .ok _ d' => .ok ⟨o', trades⟩ d' := by
  unfold execute
  rw [Attempt.run_bind, Attempt.run_get]
  dsimp only
  split
  · rfl
  · rw [Attempt.run_bind]
    cases matchOrder rule o d with
    | error f d' => rfl
    | ok a d₁ =>
        dsimp only
        rw [Attempt.run_bind]
        cases a.2.mapM (report world a.1) d₁ with
        | error f d' => rfl
        | ok trades d₂ =>
            dsimp only
            rw [Attempt.run_bind]
            cases settle a.1 d₂ with
            | error f d' => rfl
            | ok o' d₃ =>
                dsimp only
                unfold closed
                split
                · rw [Attempt.run_bind, Attempt.run_modify]
                  dsimp only
                  rw [Attempt.run_bind]
                  cases emitUpdate world o' (d₃.release o'.id) <;> rfl
                · rw [Attempt.run_bind]
                  cases emitUpdate world o' d₃ <;> rfl

/-! ## In every outcome -/

/-- What an operation on behalf of an identity leaves, come what may. -/
structure Worked (id : OrderId) (New : Order → Prop) (d d' : Desk) : Prop where
  sound : d'.book.Sound
  holds : ∀ x, d'.book.Holds x → (∃ o, d.book.Holds o ∧ o.Filled x) ∨ New x
  arrivals_le : d.counters.arrivals ≤ d'.counters.arrivals
  route_eq : ∀ x, d'.book.Has x ∨ (x ≠ id ∧ ¬ d.book.Has x) →
    d'.routes.get? x = d.routes.get? x

/-- An order that may be found resting under an identity, once its work is done. -/
structure Welcome (id : OrderId) (d : Desk) (x : Order) : Prop where
  id_eq : x.id = id
  early : x.sequence ≤ d.counters.arrivals
  sized : x.Sized

/-- An order that is fit to come in. -/
structure Enters (o : Order) (d : Desk) : Prop where
  sound : d.book.Sound
  free : ¬ d.book.Has o.id
  late : ∀ x, d.book.Holds x → x.sequence < o.sequence
  live : o.status.isLive = true
  sized : o.Sized
  priced : o.orderType = .limit → ∃ price, o.price = some price

/-- An order that `Enters` and has been filled can be put into the book as it is then. -/
theorem Enters.insertable {o x : Order} {d : Desk} {b : Book} (h : Enters o d)
    (hfilled : o.Filled x) (hw : Book.Worn d.book b) (htype : x.orderType = .limit) :
    (∃ price, x.price = some price) ∧ ¬ b.Has x.id ∧
      ∀ y ∈ (b.ladder x.side).orders, y.sequence ≠ x.sequence := by
  have hsame := hfilled.same
  obtain ⟨price, hprice⟩ := h.priced (hsame.orderType_eq.symm.trans htype)
  refine ⟨⟨price, hsame.price_eq.trans hprice⟩, ?_, fun y hy => ?_⟩
  · rw [hsame.id_eq]
    exact fun hx => h.free (hw.has hx)
  · obtain ⟨z, hz, hf⟩ := hw.from_fills y (hw.sound.holds_of_mem hy)
    have := h.late z hz
    rw [hf.same.sequence_eq, hsame.sequence_eq]
    omega

theorem Enters.arrived {o x : Order} {d : Desk} {b b' : Book} (h : Enters o d)
    (hfilled : o.Filled x) (hw : Book.Worn d.book b) (htype : x.orderType = .limit)
    (hpos : 0 < x.remaining) (hins : Book.insert x b = .ok ⟨⟩ b') : Book.Arrived x b b' := by
  obtain ⟨⟨price, hprice⟩, hfree, hseq⟩ := h.insertable hfilled hw htype
  obtain ⟨_, _, -, hcases⟩ := Book.insert_cases hw.sound htype hprice hpos hfree hseq
  split at hcases
  · obtain ⟨_, -, -, hrun⟩ := hcases
    rw [hrun] at hins
    cases hins
  · obtain ⟨_, _, _, -, -, harr, hrun⟩ := hcases
    rw [hrun] at hins
    cases hins
    exact harr

/-- What has happened on a desk when its book is only `Worn` and its reports are made. -/
theorem Worked.of_worn {id : OrderId} {New : Order → Prop} {d d' : Desk}
    (hw : Book.Worn d.book d'.book) (ha : d.counters.arrivals ≤ d'.counters.arrivals)
    (hr : ∀ x, d'.book.Has x ∨ (x ≠ id ∧ ¬ d.book.Has x) →
      d'.routes.get? x = d.routes.get? x) : Worked id New d d' :=
  ⟨hw.sound, fun x hx => Or.inl (hw.from_fills x hx), ha, hr⟩

theorem Worked.mono {id : OrderId} {New New' : Order → Prop} {d d' : Desk}
    (h : Worked id New d d') (himp : ∀ x, New x → New' x) : Worked id New' d d' :=
  ⟨h.sound, fun x hx => (h.holds x hx).imp_right (himp x), h.arrivals_le, h.route_eq⟩

/-- How a `Sized` order stands can be told by `emitUpdate`, and telling it changes nothing else. -/
theorem emitUpdate_isOk (world : Surroundings) {o : Order} (h : o.Sized) (d : Desk) :
    ∃ u, OrderUpdate.ofOrder o world.now (d.counters.events + 1) = .ok u ∧
      emitUpdate world o d = .ok ⟨⟩ (d.stamped.told (.update u)) := by
  obtain ⟨q, hq⟩ := h.filled_isOk
  rw [emitUpdate_run]
  unfold OrderUpdate.ofOrder
  rw [hq]
  exact ⟨_, rfl, rfl⟩

/-- A live order can be killed. -/
theorem kill_isOk (world : Surroundings) {o : Order} (hlive : o.status.isLive = true)
    (h : o.Sized) (d : Desk) :
    ∃ u, OrderUpdate.ofOrder { o with status := .cancelled } world.now (d.counters.events + 1) =
        .ok u ∧
      kill world o d = .ok ⟨{ o with status := .cancelled }, []⟩
        ((d.release o.id).stamped.told (.update u)) := by
  have hsized : Order.Sized { o with status := .cancelled } := ⟨h.nonneg, h.le⟩
  obtain ⟨u, hof, hu⟩ := emitUpdate_isOk world hsized (d.release o.id)
  refine ⟨u, hof, ?_⟩
  rw [kill_run, orViolate_cancel_run, if_pos hlive]
  dsimp only
  rw [hu]

theorem Worked.told {id : OrderId} {New : Order → Prop} {d d' : Desk} (h : Worked id New d d')
    (e : Event) : Worked id New d (d'.stamped.told e) :=
  ⟨h.sound, h.holds, h.arrivals_le, h.route_eq⟩

section Execute

variable {world : Surroundings} {o : Order} {d : Desk}

/-- After matching and reporting: the book is `Worn`, and routes are gone only of makers that no
longer rest. -/
theorem noted_matching {moments : List (Encounter × Fill)} {e' : Encounter} {d₂ : Desk}
    (hs : d.book.Sound) (hm : Encounter.Trades ⟨o, d.book⟩ moments e')
    (hn : Noted (moments.map Prod.snd) (d.matched e'.book) d₂) :
    d₂.book = e'.book ∧ d₂.counters.arrivals = d.counters.arrivals ∧
      ∀ x, e'.book.Has x ∨ ¬ d.book.Has x → d₂.routes.get? x = d.routes.get? x := by
  refine ⟨hn.book_eq, hn.arrivals_eq, fun x hx => hn.route_eq x fun fill hf hstatus hid => ?_⟩
  obtain ⟨m, hmem, rfl⟩ := List.mem_map.mp hf
  obtain ⟨hbefore, hafter⟩ := hm.retired hs hmem hstatus
  rcases hx with hx | hx
  · exact hafter (hid ▸ hx)
  · exact hx (hid ▸ hbefore)

/-- What `settle` leaves of an order rests if it may, and then it is as it came from the matching.
-/
theorem settle_worked {e' : Encounter} {d₂ : Desk} (h : Enters o d)
    (hfilled : o.Filled e'.incoming) (hw : Book.Worn d.book e'.book) (hbook : d₂.book = e'.book)
    (harrivals : d₂.counters.arrivals = d.counters.arrivals)
    (hroutes : ∀ x, e'.book.Has x ∨ ¬ d.book.Has x → d₂.routes.get? x = d.routes.get? x) :
    match settle e'.incoming d₂ with
    | .error _ d₃ => Worked o.id (fun _ => False) d d₃
    | .ok o' d₃ => Worked o.id o.Filled d (d₃.closed o') := by
  have hkeep {New : Order → Prop} (d₃ : Desk) (hw₃ : Book.Worn d.book d₃.book)
      (hhas : ∀ x, d₃.book.Has x → e'.book.Has x) (ha : d₃.counters = d₂.counters)
      (hr : ∀ x, x ≠ o.id → d₃.routes.get? x = d₂.routes.get? x) : Worked o.id New d d₃ := by
    refine .of_worn hw₃ (Nat.le_of_eq (by rw [ha, harrivals])) fun x hx => ?_
    have hne : x ≠ o.id := by
      rcases hx with hx | hx
      · exact fun hid => h.free (hid ▸ hw.has (hhas x hx))
      · exact hx.1
    rw [hr x hne]
    exact hroutes x (hx.imp (hhas x) And.right)
  have hsame := hfilled.same
  -- An order that does not rest leaves the book alone.
  have haside {New : Order → Prop} {o' : Order} (hid : o'.id = o.id) :
      Worked o.id New d (d₂.closed o') := by
    unfold closed
    split
    · exact hkeep (d₂.release o'.id) (hbook ▸ hw) (fun x hx => hbook ▸ hx) rfl
        fun x hne => Table.get?_erase_of_ne _ (hid ▸ hne)
    · exact hkeep d₂ (hbook ▸ hw) (fun x hx => hbook ▸ hx) rfl fun _ _ => rfl
  rw [settle_run]
  by_cases hpos : 0 < e'.incoming.remaining
  · rw [if_pos hpos]
    by_cases hwaits : Waits e'.incoming
    · rw [if_pos hwaits]
      obtain ⟨⟨price, hprice⟩, hfree, hseq⟩ :=
        h.insertable hfilled (hbook ▸ hw : Book.Worn d.book d₂.book) hwaits.1
      obtain ⟨old, level, -, hins⟩ :=
        Book.insert_cases (hbook ▸ hw.sound) hwaits.1 hprice hpos hfree hseq
      cases hsum : level.total.add? e'.incoming.remaining with
      | none =>
          rw [hsum] at hins
          obtain ⟨b', -, hk, hrun⟩ := hins
          rw [hrun]
          refine hkeep { d₂ with book := b' } (hw.trans ?_) ?_ rfl fun _ _ => rfl
          · exact hbook ▸ Book.Worn.of_kept hk
          · exact fun x hx => hbook ▸ (Book.Worn.of_kept hk).has hx
      | some total =>
          rw [hsum] at hins
          obtain ⟨_, _, b', -, -, harr, hrun⟩ := hins
          rw [hrun]
          have hlive : e'.incoming.status.isTerminal = false := by
            have := hfilled.isLive h.live hpos
            revert this
            cases e'.incoming.status <;> decide
          dsimp only [closed]
          rw [hlive, if_neg Bool.false_ne_true]
          refine ⟨harr.sound, fun x hx => ?_, Nat.le_of_eq harrivals.symm,
            fun x hx => hroutes x ?_⟩
          · rcases (harr.holds_iff x).mp hx with rfl | hx
            · exact Or.inr hfilled
            · exact Or.inl (hw.from_fills x (hbook ▸ hx))
          · rcases hx with ⟨y, hy, hid⟩ | hx
            · rcases (harr.holds_iff y).mp hy with rfl | hy
              · exact Or.inr (by rw [← hid, hsame.id_eq]; exact h.free)
              · exact Or.inl ⟨y, hbook ▸ hy, hid⟩
            · exact Or.inr hx.2
    · rw [if_neg hwaits, orViolate_cancel_run]
      by_cases hlive : e'.incoming.status.isLive = true
      · rw [if_pos hlive]
        exact haside hsame.id_eq
      · rw [if_neg hlive]
        exact hkeep d₂ (hbook ▸ hw) (fun x hx => hbook ▸ hx) rfl fun _ _ => rfl
  · rw [if_neg hpos]
    exact haside hsame.id_eq

theorem settle_sized {d₂ d₃ : Desk} {o' : Order} (h : settle o d₂ = .ok o' d₃) (hs : o.Sized) :
    o'.Sized := by
  rw [settle_run] at h
  split at h
  · split at h
    · split at h
      · cases h
      · cases h
        exact hs
    · rw [orViolate_cancel_run] at h
      split at h
      · cases h
        exact ⟨hs.nonneg, hs.le⟩
      · cases h
  · cases h
    exact hs

theorem execute_worked {rule : MatchingRule} (hr : rule.Fills) (world : Surroundings)
    (h : Enters o d) :
    match execute rule world o d with
    | .error _ d' => Worked o.id (fun _ => False) d d'
    | .ok _ d' => Worked o.id o.Filled d d' := by
  have hout := hr (d.counters.matchings + 1) ⟨o, d.book⟩ h.sound
  rw [execute_run]
  by_cases hk : d.MustKill o
  · obtain ⟨u, -, hrun⟩ := kill_isOk world h.live h.sized d
    rw [if_pos hk, hrun]
    have hkilled : Worked o.id o.Filled d (d.release o.id) := by
      refine .of_worn (.refl h.sound) (Nat.le_refl _) fun x hx => ?_
      refine Table.get?_erase_of_ne _ fun hid => ?_
      rcases hx with hx | hx
      · exact h.free (hid ▸ hx)
      · exact hx.1 hid
    exact hkilled.told _
  · rw [if_neg hk, matchOrder_run]
    cases hp : rule.run (d.counters.matchings + 1) ⟨o, d.book⟩ with
    | error f e' =>
        rw [hp] at hout
        exact .of_worn hout (Nat.le_refl _) fun _ _ => rfl
    | ok fills e' =>
        rw [hp] at hout
        obtain ⟨moments, hm, rfl⟩ := hout
        have hfilled := hm.filled h.sound
        have hworn := hm.worn h.sound
        have hnoted := reports_noted world e'.incoming
          (moments.map Prod.snd) (d.matched e'.book)
        dsimp only
        cases hrep : (moments.map Prod.snd).mapM (report world e'.incoming) (d.matched e'.book) with
        | error f d₂ =>
            rw [Attempt.outcome_error hrep] at hnoted
            obtain ⟨hb, ha, hroutes⟩ := noted_matching h.sound hm hnoted
            refine .of_worn (hb ▸ hworn) (Nat.le_of_eq ha.symm) fun x hx => hroutes x ?_
            exact hx.imp (fun hx => hb ▸ hx) And.right
        | ok trades d₂ =>
            rw [Attempt.outcome_ok hrep] at hnoted
            obtain ⟨hb, ha, hroutes⟩ := noted_matching h.sound hm hnoted
            have hsettle := settle_worked h hfilled hworn hb ha hroutes
            dsimp only
            cases hst : settle e'.incoming d₂ with
            | error f d₃ =>
                rw [hst] at hsettle
                exact hsettle
            | ok o' d₃ =>
                rw [hst] at hsettle
                obtain ⟨u, -, hu⟩ := emitUpdate_isOk world
                  (settle_sized hst (hfilled.sized h.sized)) (d₃.closed o')
                dsimp only
                rw [hu]
                exact hsettle.told _

/-- `execute` whose matching comes to its end can only stop where what is left is put in. -/
theorem execute_cases (world : Surroundings) (h : Enters o d)
    (hsized : ∀ x, d.book.Holds x → x.Sized) {fills : List Fill} {e' : Encounter}
    (hrun : Encounter.priceTime ⟨o, d.book⟩ = .ok fills e') :
    (∃ r d', execute .priceTime world o d = .ok r d') ∨
      ∃ f d', execute .priceTime world o d = .error f d' ∧ 0 < e'.incoming.remaining ∧
        Waits e'.incoming ∧ Book.insert e'.incoming e'.book = .error f d'.book := by
  rw [execute_run]
  by_cases hk : d.MustKill o
  · obtain ⟨u, -, hrun⟩ := kill_isOk world h.live h.sized d
    rw [if_pos hk, hrun]
    exact Or.inl ⟨_, _, rfl⟩
  · obtain ⟨moments, hm, rfl, -⟩ := Encounter.trades_of_priceTime hrun h.sound
    have hfilled := hm.filled h.sound
    have hmakers : ∀ fill ∈ moments.map Prod.snd, ∃ q, fill.maker.filled = .ok q := by
      intro fill hf
      obtain ⟨m, hmem, rfl⟩ := List.mem_map.mp hf
      obtain ⟨x, hx, hxf⟩ := hm.makers h.sound hmem
      exact (hxf.sized (hsized x hx)).filled_isOk
    obtain ⟨trades, d₂, hr⟩ :=
      reports_isOk world e'.incoming hmakers (d.matched e'.book)
    have hnoted := reports_noted world e'.incoming (moments.map Prod.snd) (d.matched e'.book)
    rw [Attempt.outcome_ok hr] at hnoted
    have hbook : d₂.book = e'.book := hnoted.book_eq
    rw [if_neg hk, matchOrder_priceTime, hrun]
    dsimp only
    rw [hr]
    dsimp only
    cases hst : settle e'.incoming d₂ with
    | error f d₃ =>
        refine Or.inr ⟨f, d₃, rfl, ?_⟩
        rw [settle_run, hbook] at hst
        by_cases hpos : 0 < e'.incoming.remaining
        · rw [if_pos hpos] at hst
          by_cases hwaits : Waits e'.incoming
          · rw [if_pos hwaits] at hst
            cases hins : Book.insert e'.incoming e'.book with
            | error f' b =>
                rw [hins] at hst
                cases hst
                exact ⟨hpos, hwaits, rfl⟩
            | ok _ b =>
                rw [hins] at hst
                cases hst
          · rw [if_neg hwaits, orViolate_cancel_run, if_pos (hfilled.isLive h.live hpos)] at hst
            cases hst
        · rw [if_neg hpos] at hst
          cases hst
    | ok o' d₃ =>
        obtain ⟨u, -, hu⟩ :=
          emitUpdate_isOk world (settle_sized hst (hfilled.sized h.sized)) (d₃.closed o')
        dsimp only
        rw [hu]
        exact Or.inl ⟨_, _, rfl⟩

/-- `execute` comes to its end if its matching does and what is left can be put in. -/
theorem execute_isOk (world : Surroundings) (h : Enters o d)
    (hsized : ∀ x, d.book.Holds x → x.Sized) {fills : List Fill} {e' : Encounter}
    (hrun : Encounter.priceTime ⟨o, d.book⟩ = .ok fills e')
    (hins : 0 < e'.incoming.remaining → Waits e'.incoming →
      ∃ b, Book.insert e'.incoming e'.book = .ok ⟨⟩ b) :
    ∃ r d', execute .priceTime world o d = .ok r d' := by
  rcases execute_cases world h hsized hrun with hok | ⟨f, d', -, hpos, hwaits, hfault⟩
  · exact hok
  · obtain ⟨b, hb⟩ := hins hpos hwaits
    rw [hb] at hfault
    cases hfault

end Execute

/-! ## Executions that come to their end -/

/-- What becomes of an order after its matching: nothing is left of it, or what is left is
dropped, or it rests. -/
inductive Settled (e : Encounter) : Order → Book → Prop
  | done : e.incoming.remaining ≤ 0 → Settled e e.incoming e.book
  | dropped : 0 < e.incoming.remaining → ¬ Waits e.incoming → e.incoming.status.isLive = true →
      Settled e { e.incoming with status := .cancelled } e.book
  | rests {b : Book} : 0 < e.incoming.remaining → Waits e.incoming →
      Book.insert e.incoming e.book = .ok ⟨⟩ b → Settled e e.incoming b

/-- `execute` that has come to its end: the order was killed, or it was matched, the trades were
reported, and what was left of it was `Settled`. -/
inductive Executed (world : Surroundings) (o : Order) (d : Desk) : OrderResult → Desk → Prop
  | killed {u : OrderUpdate} {n : Nat} {d' : Desk} :
      d.MustKill o → o.status.isLive = true → d'.book = d.book →
      OrderUpdate.ofOrder { o with status := .cancelled } world.now n = .ok u →
      d'.emitted = d.emitted ++ [.update u] →
      d'.routes.get? o.id = none → Counted 0 d d' →
      Executed world o d ⟨{ o with status := .cancelled }, []⟩ d'
  | matched {moments : List (Encounter × Fill)} {e' : Encounter} {o' : Order}
      {trades : List Trade} {events : List Event} {u : OrderUpdate} {n : Nat} {d' : Desk} :
      ¬ d.MustKill o → Encounter.Trades ⟨o, d.book⟩ moments e' → e'.Stops →
      Narrates world e'.incoming (moments.map Prod.snd) trades events →
      Settled e' o' d'.book → OrderUpdate.ofOrder o' world.now n = .ok u →
      d'.emitted = d.emitted ++ (events ++ [.update u]) →
      (∀ m ∈ moments, m.2.maker.status = .filled → d'.routes.get? m.2.maker.id = none) →
      (o'.status.isTerminal = true → d'.routes.get? o'.id = none) →
      Counted 1 d d' →
      Encounter.priceTime ⟨o, d.book⟩ = .ok (moments.map Prod.snd) e' →
      Executed world o d ⟨o', trades⟩ d'

theorem Settled.left {e : Encounter} {o' : Order} {b : Book} (h : Settled e o' b) :
    o'.quantity = e.incoming.quantity ∧ o'.remaining = e.incoming.remaining := by
  cases h <;> exact ⟨rfl, rfl⟩

/-- What rests once an order is `Settled` is the order itself, or has rested before. -/
theorem Settled.rest {e : Encounter} {o o' x : Order} {d : Desk} {b : Book} (h : Settled e o' b)
    (hent : Enters o d) (hfilled : o.Filled e.incoming) (hw : Book.Worn d.book e.book)
    (hx : b.Holds x) : x = o' ∨ e.book.Holds x := by
  cases h with
  | done _ => exact Or.inr hx
  | dropped _ _ _ => exact Or.inr hx
  | rests hpos hwaits hins =>
      exact ((hent.arrived hfilled hw hwaits.1 hpos hins).holds_iff x).mp hx

theorem Settled.same {e : Encounter} {o' : Order} {b : Book} (h : Settled e o' b) :
    e.incoming.Same o' := by
  cases h <;> exact ⟨rfl, rfl, rfl, rfl, rfl, rfl, rfl, rfl⟩

/-- An execution gives back the order it was given, as it stands afterwards. -/
theorem Executed.same {world : Surroundings} {o : Order} {d d' : Desk} {r : OrderResult}
    (h : Executed world o d r d') (hs : d.book.Sound) : o.Same r.order := by
  cases h with
  | killed _ _ _ _ _ => exact ⟨rfl, rfl, rfl, rfl, rfl, rfl, rfl, rfl⟩
  | matched _ hm _ _ hset _ _ => exact (hm.filled hs).same.trans hset.same

/-- An execution asks the matching rule once, unless it kills the order. -/
theorem Executed.counted {world : Surroundings} {o : Order} {d d' : Desk} {r : OrderResult}
    (h : Executed world o d r d') : Counted (if d.MustKill o then 0 else 1) d d' := by
  cases h with
  | killed hk _ _ _ _ _ hcounted =>
      rw [if_pos hk]
      exact hcounted
  | matched hnot _ _ _ _ _ _ _ _ hcounted _ =>
      rw [if_neg hnot]
      exact hcounted

/-- An execution does not change what an order asks for. -/
theorem Executed.quantity_eq {world : Surroundings} {o : Order} {d d' : Desk} {r : OrderResult}
    (h : Executed world o d r d') (hs : d.book.Sound) : r.order.quantity = o.quantity := by
  cases h with
  | killed _ _ _ _ _ => rfl
  | matched _ hm _ _ hset _ _ => exact hset.left.1.trans (hm.filled hs).quantity_eq

theorem settled_of_ok {e : Encounter} {d d' : Desk} {o' : Order} (hbook : d.book = e.book)
    (h : settle e.incoming d = .ok o' d') :
    Settled e o' d'.book ∧ d'.emitted = d.emitted ∧ d'.routes = d.routes ∧
      d'.counters = d.counters := by
  rw [settle_run] at h
  split at h
  · next hpos =>
      split at h
      · next hwaits =>
          split at h
          · cases h
          · next hins =>
              cases h
              exact ⟨.rests hpos hwaits (hbook ▸ hins), rfl, rfl, rfl⟩
      · next hwaits =>
          rw [orViolate_cancel_run] at h
          split at h
          · next hlive =>
              cases h
              exact ⟨hbook ▸ .dropped hpos hwaits hlive, rfl, rfl, rfl⟩
          · cases h
  · next hpos =>
      cases h
      exact ⟨hbook ▸ .done (Int.not_lt.mp hpos), rfl, rfl, rfl⟩

theorem ofOrder_of_emitUpdate {world : Surroundings} {o : Order} {d d' : Desk}
    (h : emitUpdate world o d = .ok ⟨⟩ d') :
    ∃ u n, OrderUpdate.ofOrder o world.now n = .ok u ∧ d'.emitted = d.emitted ++ [.update u] ∧
      d'.book = d.book ∧ Counted 0 d d' ∧ d'.routes = d.routes := by
  rw [emitUpdate_run] at h
  split at h
  · cases h
  · next u hu =>
      cases h
      exact ⟨u, _, hu, rfl, rfl, counted_told _ _, rfl⟩

theorem executed_of_ok {world : Surroundings} {o : Order} {d d' : Desk} {r : OrderResult}
    (hs : d.book.Sound) (h : execute .priceTime world o d = .ok r d') :
    Executed world o d r d' := by
  rw [execute_run] at h
  split at h
  · next hk =>
      rw [kill_run, orViolate_cancel_run] at h
      split at h
      · cases h
      · next o' d₁ hc =>
          split at hc
          · next hlive =>
              cases hc
              split at h
              · cases h
              · next hu =>
                  cases h
                  obtain ⟨u, n, hu, he, hb, hcounted, hr⟩ := ofOrder_of_emitUpdate hu
                  have hreleased : Counted 0 d (d.release o.id) := .of_eq rfl rfl
                  refine .killed hk hlive hb hu he ?_ (hreleased.trans hcounted)
                  rw [hr]
                  exact Table.get?_erase_self _ _
          · cases hc
  · next hk =>
      rw [matchOrder_priceTime] at h
      cases hp : Encounter.priceTime ⟨o, d.book⟩ with
      | error f e' => rw [hp] at h; cases h
      | ok fills e' =>
          rw [hp] at h
          dsimp only at h
          obtain ⟨moments, hm, rfl, hstop⟩ := Encounter.trades_of_priceTime hp hs
          have hnoted := reports_noted world e'.incoming
            (moments.map Prod.snd) (d.matched e'.book)
          split at h
          · cases h
          · next trades d₂ hr =>
              rw [Attempt.outcome_ok hr] at hnoted
              obtain ⟨events, he, hstory⟩ := narrates_of_reports hr
              split at h
              · cases h
              · next o' d₃ hst =>
                  obtain ⟨hset, he₃, hr₃, hc₃⟩ := settled_of_ok hnoted.book_eq hst
                  split at h
                  · cases h
                  · next hu =>
                      cases h
                      obtain ⟨u, n, hu, he', hb, hcounted, hr'⟩ := ofOrder_of_emitUpdate hu
                      obtain ⟨hbook, hemitted, hcounters⟩ := d₃.closed_same o'
                      refine .matched hk hm hstop hstory ?_ hu ?_ (fun m hm' hstatus => ?_)
                        (fun hterminal => ?_) ?_ hp
                      · rw [hb, hbook]
                        exact hset
                      · rw [he', hemitted, he₃, he, List.append_assoc]
                        rfl
                      · rw [hr']
                        refine closed_released (Or.inl ?_)
                        rw [hr₃]
                        exact reports_released hr
                          (Or.inr ⟨m.2, List.mem_map_of_mem hm', hstatus, rfl⟩)
                      · rw [hr']
                        exact closed_released (Or.inr ⟨hterminal, rfl⟩)
                      · have hasked : Counted 1 d (d.matched e'.book) := ⟨rfl, rfl, rfl⟩
                        exact (((hasked.trans (reports_counted hr)).trans (.of_eq hc₃ he₃)).trans
                          (.of_eq hcounters hemitted)).trans hcounted

end Desk

end Bourse
