import Bourse.Proofs.Ledger.Keeping

/-!
# The ledger after a turn

A call that comes to its end keeps the ledger right about the engine, whatever the
`Keeping` of the accounts is, and adds twice what it has traded to the sum of the
accounts; that is what `Entered` says of a turn. All that a `Keeping` has to see to is
that a new account is right about a new order, and that an account may be told what a
modification asks for.
-/

namespace Bourse

namespace Keeping

/-- The ledger has been kept over a turn. -/
structure Entered (K : Keeping) (L : Ledger) (t : Turn) : Prop where
  agrees : K.Agrees (L.enter t) t.after.Resting
  traded_eq : (L.enter t).traded = L.traded + 2 * exactSum (t.trades.map Trade.quantity)
  answered : ∀ o, t.answer.order? = some o → K.Keeps (L.enter t) o

variable {K : Keeping} {L L₁ : Ledger} {e : Engine} {world : Surroundings} {id : OrderId} {i : Nat}
  {slot : Slot} {t : Turn}

/-- Work on one book leaves the accounts of all others alone. -/
theorem entered_of_work {d d' : Desk} (h : K.Agrees L e.Resting) (hs : e.Sound)
    (hslot : e.slots[i]? = some slot) (hroute : ∃ r, e.routes.get? id = some r ∧ r.slot = i)
    (hbook : d.book = slot.book)
    (hl : Leaves K L (d'.emitted.foldl Ledger.post (L.prepare t)) id d d')
    (hafter : t.after = e.leave i d') (hevents : t.events = d'.emitted)
    (hanswer : ∀ o, t.answer.order? = some o →
      K.Keeps (d'.emitted.foldl Ledger.post (L.prepare t)) o) : Entered K L t := by
  have hposted : L.enter t = d'.emitted.foldl Ledger.post (L.prepare t) := by
    rw [Ledger.enter, hevents]
  rw [← hposted] at hl hanswer
  refine ⟨⟨?_, hl.agrees.lawful⟩, ?_, hanswer⟩
  · rw [hafter]
    rintro x ⟨j, hx⟩
    rcases (Engine.rests_leave hslot).mp hx with ⟨-, hx⟩ | ⟨hj, hx⟩
    · exact hl.agrees.keeps x hx
    · have hne : x.id ≠ id := by
        rintro rfl
        obtain ⟨r, hr, hri⟩ := hroute
        obtain ⟨r', hr', hrj⟩ := hs.routed hx
        rw [hr] at hr'
        cases hr'
        exact hj (hrj.symm.trans hri)
      refine (h.keeps x ⟨j, hx⟩).of_newest? (hl.frame x.id hne ?_)
      rintro ⟨y, hy, hid⟩
      exact hj (hs.slot_unique hx ⟨slot, hslot, hbook ▸ hy⟩ hid.symm)
  · rw [hl.traded_eq, Turn.trades, hevents]

theorem posts_of_rejections {events : List Event}
    (h : ∀ ev ∈ events, ∃ u : OrderUpdate, ev = .update u ∧ u.IsRejection) (L : Ledger) :
    events.foldl Ledger.post L = L ∧ events.filterMap Event.trade? = [] := by
  induction events with
  | nil => exact ⟨rfl, rfl⟩
  | cons ev rest ih =>
      obtain ⟨u, rfl, hu⟩ := h ev List.mem_cons_self
      rw [List.foldl_cons, Ledger.post_rejected L hu.reasoned]
      exact ih fun x hx => h x (List.mem_cons_of_mem _ hx)

/-- A turn without events that tells of no order leaves the ledger as `prepare` has made it. -/
theorem entered_silent (hprepared : L.prepare t = L₁) (hevents : t.events = [])
    (hanswer : t.answer.order? = none) (htraded : L₁.traded = L.traded)
    (h : K.Agrees L₁ t.after.Resting) : Entered K L t := by
  have hposted : L.enter t = L₁ := by
    rw [Ledger.enter, hprepared, hevents]
    rfl
  refine ⟨hposted.symm ▸ h, ?_, fun o ho => ?_⟩
  · rw [hposted, htraded, Turn.trades, hevents]
    exact (Int.add_zero _).symm
  · rw [hanswer] at ho
    cases ho

theorem entered_addInstrument (h : K.Agrees L e.Resting) (config : InstrumentConfig) :
    Entered K L (e.perform (.addInstrument config)) := by
  refine entered_silent rfl (Engine.addInstrument_events e config) rfl rfl ⟨?_, h.lawful⟩
  rintro o ⟨j, ho⟩
  exact h.keeps o ⟨j, (Engine.addInstrument_rests e config j o).mp ho⟩

/-- An intent that the engine does not admit leaves no trace in the ledger. -/
theorem entered_refused {intent : OrderIntent} (h : K.Agrees L e.Resting) (hs : e.Sound)
    (hnot : ∀ i slot, ¬ e.Admits world intent i slot) :
    Entered K L (e.perform (.submit world intent)) := by
  have hrefused := Engine.submit_refused hs.toInOrder hnot
  have henters : e.enters world intent = false := by
    refine Bool.eq_false_iff.mpr fun hadm => ?_
    obtain ⟨i, slot, ha⟩ := Engine.enters_iff.mp hadm
    exact hnot i slot ha
  have hprepared : L.prepare (e.perform (.submit world intent)) = L := by
    show (if e.enters world intent then _ else L) = L
    rw [henters, if_neg Bool.false_ne_true]
  obtain ⟨hposts, htrades⟩ := posts_of_rejections hrefused.events L
  have hposted : L.enter (e.perform (.submit world intent)) = L := by
    rw [Ledger.enter, hprepared]
    exact hposts
  refine ⟨?_, ?_, fun o ho => ?_⟩
  · rw [hposted]
    refine ⟨?_, h.lawful⟩
    rintro o ⟨j, ho⟩
    exact h.keeps o ⟨j, hrefused.unmoved.rests_iff.mp ho⟩
  · rw [hposted]
    show _ = _ + 2 * exactSum (List.map _ ((e.submit world intent).events.filterMap _))
    rw [htrades]
    exact (Int.add_zero _).symm
  · change (Answer.submitted (e.submit world intent).answer).order? = some o at ho
    rcases hrefused.answer with ⟨why, hwhy⟩ | ⟨j, slot, -, -, hfault⟩
    · rw [hwhy] at ho
      cases ho
    · rw [hfault] at ho
      cases ho

/-- An intent that the engine `Admits` has an account `opened`. -/
theorem prepare_submit {intent : OrderIntent} (hadm : e.Admits world intent i slot) (L : Ledger) :
    L.prepare (e.perform (.submit world intent)) =
      .opened (e.entering world intent).id intent.quantity :: L := by
  show (if e.enters world intent then _ else L) = _
  rw [if_pos (Engine.enters_iff.mpr ⟨i, slot, hadm⟩)]
  rfl

theorem entered_submit {intent : OrderIntent} {r : OrderResult} (h : K.Agrees L e.Resting)
    (hs : e.Sound) (ha : (e.submit world intent).answer = .ok (.ok r))
    (hopen : ∀ id, K.Right (.opened id intent.quantity) intent.quantity intent.quantity) :
    Entered K L (e.perform (.submit world intent)) := by
  obtain ⟨i, slot, d, hadm, hexec, hengine, hevents⟩ := Engine.submit_of_ok hs ha
  have hent := hadm.enters hs.toInOrder
  have hslot := Engine.slot_of_lookup? hadm.found
  have hnew (x : OrderId) : Ledger.newest?
      (.opened (e.entering world intent).id intent.quantity :: L) x =
        if (e.entering world intent).id = x then
          some (.opened (e.entering world intent).id intent.quantity)
        else L.newest? x := Ledger.newest?_cons _ L x
  have hfollows : K.Follows (.opened (e.entering world intent).id intent.quantity :: L)
      ⟨e.entering world intent, slot.book⟩ := by
    refine ⟨⟨_, by rw [hnew, if_pos rfl], hopen _⟩, fun x hx => ?_, fun a ha => h.lawful a ?_⟩
    · refine (h.keeps x ⟨i, slot, hslot, hx⟩).of_newest? ?_
      rw [hnew, if_neg fun hid => hent.free ⟨x, hx, hid.symm⟩]
    · dsimp only at ha
      unfold Ledger.others at ha
      rwa [List.eraseP_cons_of_pos (by simp [Account.opened])] at ha
  obtain ⟨hleaves, hkeeps⟩ := Follows.executed
    (d := (e.received i (e.entering world intent).id).desk slot.book) hfollows
    (Desk.executed_of_ok hent.sound hexec) hent rfl
  have hleaves' : Leaves K L (d.emitted.foldl Ledger.post
      (.opened (e.entering world intent).id intent.quantity :: L)) (e.entering world intent).id
      ((e.received i (e.entering world intent).id).desk slot.book) d := by
    refine ⟨hleaves.agrees, fun x hne hnot => ?_, ?_⟩
    · rw [hleaves.frame x hne hnot, hnew, if_neg (Ne.symm hne)]
    · rw [hleaves.traded_eq, Ledger.traded_cons, Account.traded_opened, Int.zero_add]
  rw [← prepare_submit hadm L] at hleaves' hkeeps
  refine entered_of_work (e := e.received i (e.entering world intent).id) h
    (hs.received hadm.free i) hslot ⟨_, Table.get?_insert_self _ _ _, rfl⟩ rfl hleaves' hengine
    hevents fun o ho => ?_
  change (Answer.submitted (e.submit world intent).answer).order? = some o at ho
  rw [ha] at ho
  cases ho
  exact hkeeps

/-- A new account hides no account of an order that rests. -/
theorem Keeps.prepared {intent : OrderIntent} {o : Order} (h : K.Keeps L o) (hs : e.Sound)
    (ho : e.Resting o) : K.Keeps (L.prepare (e.perform (.submit world intent))) o := by
  show K.Keeps (if e.enters world intent then _ :: L else L) o
  split
  · next henters =>
      obtain ⟨j, ho⟩ := ho
      obtain ⟨i, slot, hadm⟩ := Engine.enters_iff.mp henters
      obtain ⟨r, hr, -⟩ := hs.routed ho
      have hfree : e.routes.get? (intent.orderId.getD world.orderId) = none := hadm.free
      refine h.of_newest? ((Ledger.newest?_cons _ L o.id).trans (if_neg fun hid => ?_))
      change intent.orderId.getD world.orderId = o.id at hid
      rw [← hid, hfree] at hr
      cases hr
  · exact h

/-- A submission that stops at a fault may have opened an account, but it has posted nothing. -/
theorem entered_aborted {intent : OrderIntent} {f : Fault} (h : K.Agrees L e.Resting)
    (ha : (e.submit world intent).answer = .error f) (hevents : (e.submit world intent).events = [])
    (hlawful : e.enters world intent = true →
      K.Lawful (.opened (intent.orderId.getD world.orderId) intent.quantity))
    (hkeeps : ∀ o, (e.submit world intent).engine.Resting o →
      K.Keeps (L.prepare (e.perform (.submit world intent))) o) :
    Entered K L (e.perform (.submit world intent)) := by
  refine entered_silent rfl hevents ?_ ?_ ⟨hkeeps, ?_⟩
  · show (Answer.submitted (e.submit world intent).answer).order? = none
    rw [ha]
    rfl
  · show Ledger.traded (if e.enters world intent then _ :: L else L) = L.traded
    split
    · rw [Ledger.traded_cons, Account.traded_opened, Int.zero_add]
    · rfl
  · show ∀ a ∈ (if e.enters world intent then _ :: L else L), K.Lawful a
    split
    · next henters => exact List.forall_mem_cons.mpr ⟨hlawful henters, h.lawful⟩
    · exact h.lawful

theorem entered_cancel {r : CancelResult} (h : K.Agrees L e.Resting) (hs : e.Sound)
    (ha : (e.cancel world id).answer = .ok r) : Entered K L (e.perform (.cancel world id)) := by
  rcases Engine.cancel_of_ok hs ha with ⟨hengine, hevents, rfl⟩ |
      ⟨i, slot, d, hl, hcancelled, hengine, hevents⟩
  · refine entered_silent rfl hevents ?_ rfl ?_
    · show (Answer.cancelled (e.cancel world id).answer).order? = none
      rw [ha]
      rfl
    · show K.Agrees L (e.cancel world id).engine.Resting
      rw [hengine]
      exact h
  · obtain ⟨hslot, hroute⟩ := Engine.route_of_locate? hl
    have hbook : K.Agrees L (e.desk slot.book).book.Holds :=
      ⟨fun x hx => h.keeps x ⟨i, slot, hslot, hx⟩, h.lawful⟩
    obtain ⟨hleaves, hkeeps⟩ := hbook.cancelled hcancelled rfl
    refine entered_of_work h hs hslot hroute rfl hleaves hengine hevents fun o ho => ?_
    change (Answer.cancelled (e.cancel world id).answer).order? = some o at ho
    rw [ha] at ho
    cases r with
    | notFound => cases ho
    | cancelled x =>
        cases ho
        exact hkeeps o rfl

theorem prepare_modify {request : ModifyRequest} {r : ModifyResult}
    (ha : (e.modify world id request).answer = .ok r) (L : Ledger) :
    L.prepare (e.perform (.modify world id request)) = L.asked id r := by
  show Ledger.prepare L ⟨_, .modify _ _ _, .modified (e.modify world id request).answer, _, _⟩ = _
  rw [ha]
  rfl

theorem entered_unmodified {request : ModifyRequest} {r : ModifyResult}
    (h : K.Agrees L e.Resting) (hs : e.Sound) (ha : (e.modify world id request).answer = .ok r)
    (hnot : ∀ res, r ≠ .modified res) : Entered K L (e.perform (.modify world id request)) := by
  obtain ⟨hengine, hevents⟩ := Engine.modify_unmodified hs ha hnot
  have hasked : L.asked id r = L := by
    cases r with
    | modified res => exact absurd rfl (hnot res)
    | notFound => rfl
    | rejected reason => rfl
  refine entered_silent ((prepare_modify ha L).trans hasked) hevents ?_ rfl ?_
  · show (Answer.modified (e.modify world id request).answer).order? = none
    rw [ha]
    cases r with
    | modified res => exact absurd rfl (hnot res)
    | notFound => rfl
    | rejected reason => rfl
  · show K.Agrees L (e.modify world id request).engine.Resting
    rw [hengine]
    exact h

theorem entered_modify {request : ModifyRequest} {r : OrderResult} (h : K.Agrees L e.Resting)
    (hs : e.Sound) (hlive : e.Live) (ha : (e.modify world id request).answer = .ok (.modified r))
    (hask : ∀ o a f asked, e.Resting o → K.Right a o.quantity o.remaining → o.filled = .ok f →
      0 < request.quantity → f.add request.quantity = .ok asked →
      K.Right (a.ask asked) asked request.quantity) :
    Entered K L (e.perform (.modify world id request)) := by
  rcases Engine.modify_of_ok hs ha with ⟨-, -, hnot⟩ |
      ⟨i, slot, d, hr, hmodified, hengine, hevents⟩
  · exact absurd rfl (hnot r)
  · obtain ⟨hslot, hroute⟩ := Engine.route_of_locate? hr.found
    have hq := (Engine.passed_of_checkRequest hr.checked).1
    have hbook : K.Agrees L (e.desk slot.book).book.Holds :=
      ⟨fun x hx => h.keeps x ⟨i, slot, hslot, hx⟩, h.lawful⟩
    obtain ⟨hleaves, hkeeps⟩ := hbook.modified hmodified rfl (hs.ready hlive hslot)
      (Int.le_of_lt hq)
      (fun o a f asked ho hright hf => hask o a f asked ⟨i, slot, hslot, ho⟩ hright hf hq)
    rw [← prepare_modify ha L] at hleaves hkeeps
    refine entered_of_work h hs hslot hroute rfl hleaves hengine hevents fun o ho => ?_
    change (Answer.modified (e.modify world id request).answer).order? = some o at ho
    rw [ha] at ho
    cases ho
    exact hkeeps r rfl

end Keeping

end Bourse
