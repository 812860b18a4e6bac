import Bourse.Proofs.Ledger.Basic

/-!
# Keeping accounts

What it takes for a ledger to stay right about the orders of an engine. A `Keeping` says
which accounts are right about an order, given the quantity it asks for and what is left
of it, and which are lawful on their own. If a fill keeps an account right and an update
makes it lawful, then the ledger `Follows` a matching: each trade is posted to the maker
and to the incoming order, the update of the maker makes its account lawful again, and the
update that comes last does so for the incoming order. All accounts but those two are as
they were.

How exact an account is, is for each `Keeping` to say.
-/

namespace Bourse

/-- A way of keeping accounts. -/
structure Keeping where
  /-- The account is right about an order that asks for a quantity and has one left. -/
  Right : Account → Quantity → Quantity → Prop
  /-- The account is in order by itself. -/
  Lawful : Account → Prop
  /-- The quantity may be traded. -/
  Fits : Quantity → Prop
  quantity_eq : ∀ {a asked left}, Right a asked left → a.quantity = asked
  fits : ∀ {a asked left}, Right a asked left → Fits left
  fill : ∀ {a asked left q r}, Right a asked left → Fits q → 0 < q → q ≤ left →
    left.sub q = .ok r → Right (a.trade q) asked r
  tell : ∀ {a asked left f}, Right a asked left → asked.sub left = .ok f →
    Right (a.tell left f) asked left ∧ Lawful (a.tell left f)

namespace Keeping

variable (K : Keeping)

/-- The newest account of an order is right about it. -/
def Keeps (L : Ledger) (o : Order) : Prop :=
  ∃ a, L.newest? o.id = some a ∧ K.Right a o.quantity o.remaining

/-- The ledger `Keeps` the account of each of some orders, and all its accounts are lawful. -/
structure Agrees (L : Ledger) (S : Order → Prop) : Prop where
  keeps : ∀ o, S o → K.Keeps L o
  lawful : ∀ a ∈ L, K.Lawful a

/-- The ledger is right about an incoming order and a book. Only the account of the incoming order
need not be lawful. -/
structure Follows (L : Ledger) (e : Encounter) : Prop where
  incoming : K.Keeps L e.incoming
  resting : ∀ o, e.book.Holds o → K.Keeps L o
  lawful : ∀ a ∈ L.others e.incoming.id, K.Lawful a

variable {K} {L : Ledger}

theorem Keeps.of_newest? {L' : Ledger} {o : Order} (h : K.Keeps L o)
    (hnew : L'.newest? o.id = L.newest? o.id) : K.Keeps L' o := by
  obtain ⟨a, ha, hright⟩ := h
  exact ⟨a, hnew.trans ha, hright⟩

theorem Keeps.of_same {o o' : Order} (h : K.Keeps L o) (hid : o'.id = o.id)
    (hq : o'.quantity = o.quantity) (hr : o'.remaining = o.remaining) : K.Keeps L o' := by
  unfold Keeps
  rw [hid, hq, hr]
  exact h

/-- An update makes the account of its order lawful. -/
theorem Keeps.told {o : Order} {now : Timestamp} {n : Nat} {u : OrderUpdate}
    (h : K.Keeps L o) (hu : OrderUpdate.ofOrder o now n = .ok u)
    (hlawful : ∀ a ∈ L.others o.id, K.Lawful a) :
    K.Keeps (L.post (.update u)) o ∧ ∀ a ∈ L.post (.update u), K.Lawful a := by
  obtain ⟨hid, hremaining, hfilled, hreason⟩ := Desk.ofOrder_eq_ok hu
  obtain ⟨a, ha, hright⟩ := h
  obtain ⟨htold, hlaw⟩ := K.tell hright (Order.filled_eq_ok.mp hfilled)
  have hnew := Ledger.newest?_revise_self (Account.id_tell o.remaining u.filled) ha
  rw [Ledger.post_update L hreason, hid, hremaining]
  refine ⟨⟨_, hnew, htold⟩, Ledger.forall_of_others o.id ?_ fun x hx => ?_⟩
  · rw [Ledger.others_revise_self (Account.id_tell _ _)]
    exact hlawful
  · rw [hnew] at hx
    cases hx
    exact hlaw

section Matching

variable {e e' : Encounter} {fill : Fill} {level : Level} {post : List Level} {maker taker : Order}
  {ys : List Order} {total : Quantity} {world : Surroundings}

/-- A trade and the update of its maker keep the ledger with the encounter. -/
theorem Follows.dealt (h : K.Follows L e)
    (hd : Encounter.Deal e fill e' level post maker ys total) (hs : e.book.Sound)
    (haloof : ¬ e.book.Has e.incoming.id) (htaker : taker.id = e.incoming.id) (n : Nat) {m : Nat}
    {u : OrderUpdate} (hu : OrderUpdate.ofOrder fill.maker world.now m = .ok u) :
    K.Follows ((L.post (.trade (Desk.tradeOf world taker fill n))).post (.update u)) e' ∧
      ((L.post (.trade (Desk.tradeOf world taker fill n))).post (.update u)).traded =
        L.traded + 2 * fill.quantity.atoms := by
  have hheld := hd.holds hs
  have hne : maker.id ≠ e.incoming.id := fun hid => haloof ⟨maker, hheld, hid⟩
  obtain ⟨a, ha, hright⟩ := h.resting maker hheld
  obtain ⟨b, hb, hbright⟩ := h.incoming
  obtain ⟨hpos, hle, -, r, hr, hmaker⟩ := Order.fill_eq_ok hd.maker_fill
  obtain ⟨-, hle', -, r', hr', hincoming⟩ := Order.fill_eq_ok hd.incoming_fill
  have hfits : K.Fits fill.quantity := by
    rw [hd.quantity_eq]
    unfold Encounter.dealt Decimal.smaller
    split
    · exact K.fits hright
    · exact K.fits hbright
  have hfilled := K.fill hright hfits hpos hle hr
  have hbfilled := K.fill hbright hfits hpos hle' hr'
  obtain ⟨hid, hremaining, hquantity, hreason⟩ := Desk.ofOrder_eq_ok hu
  have hmid : fill.maker.id = maker.id := (Order.fill_same hd.maker_fill).id_eq
  have hiid : e'.incoming.id = e.incoming.id := (Order.fill_same hd.incoming_fill).id_eq
  have htold : (Order.quantity maker).sub r = .ok u.filled := by
    have := Order.filled_eq_ok.mp hquantity
    rw [hmaker] at this
    exact this
  have hremaining : u.remaining = r := by rw [hremaining, hmaker]
  obtain ⟨hmright, hmlaw⟩ := K.tell hfilled htold
  have hposted : (L.post (.trade (Desk.tradeOf world taker fill n))).post (.update u) =
      ((L.revise maker.id (.trade fill.quantity)).revise e.incoming.id
        (.trade fill.quantity)).revise maker.id (.tell r u.filled) := by
    rw [Ledger.post_update _ hreason, Ledger.post_trade, hid, hmid, hremaining]
    show Ledger.revise _ _ (Ledger.revise taker.id _ (Ledger.revise fill.maker.id _ L)) = _
    rw [htaker, hmid]
    rfl
  rw [hposted]
  have hnew := Ledger.newest?_dealt hne ha hb fill.quantity r u.filled
  refine ⟨⟨?_, fun x hx => ?_, ?_⟩, ?_⟩
  · refine ⟨b.trade fill.quantity, ?_, ?_⟩
    · rw [hnew, hiid, if_neg (Ne.symm hne), if_pos rfl]
    · rw [hincoming]
      exact hbfilled
  · rcases hd.rest hx with rfl | ⟨hx, hxne⟩
    · refine ⟨_, by rw [hnew, hmid, if_pos rfl], ?_⟩
      rw [hmaker]
      exact hmright
    · refine (h.resting x hx).of_newest? ?_
      rw [hnew, if_neg hxne, if_neg fun hid => haloof ⟨x, hx, hid⟩]
  · rw [hiid, Ledger.others_revise_ne (Account.id_tell _ _) hne,
      Ledger.others_revise_self (Account.id_trade _),
      Ledger.others_revise_ne (Account.id_trade _) hne, Ledger.revise_revise (Account.id_trade _)]
    refine Ledger.forall_revise h.lawful fun x hx => ?_
    rw [Ledger.newest?_others_ne hne, ha] at hx
    cases hx
    exact hmlaw
  · exact Ledger.traded_dealt hne ha hb fill.quantity r u.filled

/-- What `Narrates` a whole matching keeps the ledger with it. -/
theorem Follows.trades {moments : List (Encounter × Fill)} {trades : List Trade}
    {events : List Event} (hm : Encounter.Trades e moments e')
    (hn : Desk.Narrates world taker (moments.map Prod.snd) trades events)
    (h : K.Follows L e) (hs : e.book.Sound) (haloof : ¬ e.book.Has e.incoming.id)
    (htaker : taker.id = e.incoming.id) :
    K.Follows (events.foldl Ledger.post L) e' ∧
      (events.foldl Ledger.post L).traded =
        L.traded + 2 * exactSum (trades.map Trade.quantity) := by
  induction hm generalizing L trades events with
  | none =>
      cases hn
      exact ⟨h, (Int.add_zero _).symm⟩
  | @some e e₁ e' fill rest hstep _ ih =>
      obtain ⟨_, _, _, _, _, hdeal⟩ := hstep.deal hs
      have hw := hdeal.worn hs
      have hid : e₁.incoming.id = e.incoming.id := (Order.fill_same hdeal.incoming_fill).id_eq
      cases hn with
      | @some _ _ trades events n m u hu hrest =>
          obtain ⟨hfollows, hone⟩ := h.dealt hdeal hs haloof htaker n hu
          obtain ⟨hdone, hall⟩ := ih hrest hfollows hw.sound
            (fun hhas => haloof (hid ▸ hw.has hhas)) (htaker.trans hid.symm)
          refine ⟨hdone, ?_⟩
          rw [List.map_cons, exactSum_cons]
          rw [List.foldl_cons, List.foldl_cons, hall, hone]
          show _ + 2 * fill.quantity.atoms + _ = _ + 2 * (fill.quantity.atoms + _)
          omega

end Matching

/-! ## Work at a desk -/

section Desk

variable {world : Surroundings} {o : Order} {d d' : Desk} {id : OrderId}

/-- What `Narrates` fills names the incoming order and the makers. -/
theorem names_of_narrates {taker : Order} {fills : List Fill} {trades : List Trade}
    {events : List Event} (h : Desk.Narrates world taker fills trades events) {ev : Event}
    (hev : ev ∈ events) (hid : ev.Names id) :
    id = taker.id ∨ ∃ fill ∈ fills, fill.maker.id = id := by
  induction h with
  | none => cases hev
  | @some fill fills trades events n m u hu _ ih =>
      rcases List.mem_cons.mp hev with rfl | hev
      · rcases hid with hid | hid
        · exact Or.inr ⟨fill, List.mem_cons_self, hid⟩
        · exact Or.inl hid.symm
      · rcases List.mem_cons.mp hev with rfl | hev
        · exact Or.inr ⟨fill, List.mem_cons_self, (Desk.ofOrder_eq_ok hu).1.symm.trans hid.2⟩
        · exact (ih hev).imp_right fun ⟨f, hf, hfid⟩ => ⟨f, List.mem_cons_of_mem _ hf, hfid⟩

theorem newest?_update {o : Order} {now : Timestamp} {n : Nat} {u : OrderUpdate}
    (hu : OrderUpdate.ofOrder o now n = .ok u) (hne : id ≠ o.id) (L : Ledger) :
    (L.post (.update u)).newest? id = L.newest? id := by
  refine Ledger.newest?_post_of_not_names ?_ L
  rintro ⟨-, hid⟩
  exact hne (hid.symm.trans (Desk.ofOrder_eq_ok hu).1)

/-- What posting the events of a piece of work for an order has done to a ledger: it is right about
the book, and no account was touched but that of the order and those of the book. -/
structure Leaves (K : Keeping) (L L' : Ledger) (id : OrderId) (d d' : Desk) : Prop where
  agrees : K.Agrees L' d'.book.Holds
  frame : ∀ x, x ≠ id → ¬ d.book.Has x → L'.newest? x = L.newest? x
  traded_eq : L'.traded = L.traded +
    2 * exactSum ((d'.emitted.filterMap Event.trade?).map Trade.quantity)

/-- Work that is told by nothing `Leaves` the ledger right. -/
theorem leaves_silent (h : K.Agrees L d.book.Holds) (hemitted : d'.emitted = [])
    (hrest : ∀ x, d'.book.Holds x → d.book.Holds x) :
    Leaves K L (d'.emitted.foldl Ledger.post L) id d d' := by
  rw [hemitted]
  refine ⟨⟨fun x hx => h.keeps x (hrest x hx), h.lawful⟩, fun _ _ _ => rfl, ?_⟩
  rw [hemitted]
  exact (Int.add_zero _).symm

/-- Work that is told by a single update `Leaves` the ledger right. -/
theorem leaves_of_update {L₀ : Ledger} {now : Timestamp} {n : Nat} {u : OrderUpdate}
    (hkeeps : K.Keeps L₀ o) (hlawful : ∀ a ∈ L₀.others o.id, K.Lawful a)
    (hu : OrderUpdate.ofOrder o now n = .ok u) (hemitted : d'.emitted = [.update u])
    (hrest : ∀ x, d'.book.Holds x → x = o ∨ (K.Keeps L₀ x ∧ x.id ≠ o.id))
    (hframe : ∀ x, x ≠ o.id → L₀.newest? x = L.newest? x) (htraded : L₀.traded = L.traded) :
    Leaves K L (d'.emitted.foldl Ledger.post L₀) o.id d d' ∧
      K.Keeps (d'.emitted.foldl Ledger.post L₀) o := by
  obtain ⟨hkeeps', hlawful'⟩ := hkeeps.told hu hlawful
  have hposted : d'.emitted.foldl Ledger.post L₀ = L₀.post (.update u) := by
    rw [hemitted]
    rfl
  rw [hposted]
  refine ⟨⟨⟨fun x hx => ?_, hlawful'⟩, fun x hne _ => ?_, ?_⟩, hkeeps'⟩
  · rcases hrest x hx with rfl | ⟨hx, hne⟩
    · exact hkeeps'
    · exact hx.of_newest? (newest?_update hu hne L₀)
  · exact (newest?_update hu hne L₀).trans (hframe x hne)
  · rw [Ledger.traded_post_update, htraded, hemitted]
    exact (Int.add_zero _).symm

/-- The ledger is right about what has been `Executed`. -/
theorem Follows.executed {r : OrderResult} (h : K.Follows L ⟨o, d.book⟩)
    (hexec : Desk.Executed world o d r d') (hent : Desk.Enters o d) (he : d.emitted = []) :
    Leaves K L (d'.emitted.foldl Ledger.post L) o.id d d' ∧
      K.Keeps (d'.emitted.foldl Ledger.post L) r.order := by
  have hs := hent.sound
  cases hexec with
  | killed _ _ hbook hu hemitted =>
      refine leaves_of_update (o := { o with status := .cancelled })
        (h.incoming.of_same rfl rfl rfl) h.lawful hu (by rw [hemitted, he]; rfl) (fun x hx => ?_)
        (fun _ _ => rfl) rfl
      rw [hbook] at hx
      exact Or.inr ⟨h.resting x hx, fun hid => hent.free ⟨x, hx, hid⟩⟩
  | @matched moments e' o' trades events u n d' _ hm _ hstory hset hu hemitted =>
      have hw := hm.worn hs
      have hfilled := hm.filled hs
      have hid : e'.incoming.id = o.id := hfilled.same.id_eq
      obtain ⟨hfollows, htraded⟩ := h.trades hm hstory hs hent.free hid
      have hout := hset.same.id_eq
      obtain ⟨hquantity, hremaining⟩ := hset.left
      obtain ⟨hkeeps, hlawful⟩ := (hfollows.incoming.of_same hout hquantity hremaining).told hu
        (hout ▸ hfollows.lawful)
      have hposted : d'.emitted.foldl Ledger.post L =
          (events.foldl Ledger.post L).post (.update u) := by
        rw [hemitted, he, List.nil_append, List.foldl_append]
        rfl
      rw [hposted]
      refine ⟨⟨⟨fun x hx => ?_, hlawful⟩, fun x hne hnot => ?_, ?_⟩, hkeeps⟩
      · rcases hset.rest hent hfilled hw hx with rfl | hx
        · exact hkeeps
        · refine (hfollows.resting x hx).of_newest? (newest?_update hu ?_ _)
          rw [hout, hid]
          exact fun hxid => hent.free (hw.has ⟨x, hx, hxid⟩)
      · rw [newest?_update hu (by rw [hout, hid]; exact hne)]
        refine Ledger.newest?_posts_of_not_names (fun ev hev hnames => ?_) L
        rcases names_of_narrates hstory hev hnames with hx | ⟨fill, hf, hx⟩
        · exact hne (hx.trans hid)
        · obtain ⟨m, hmem, rfl⟩ := List.mem_map.mp hf
          obtain ⟨y, hy, hyf⟩ := hm.makers hs hmem
          exact hnot ⟨y, hy, hyf.same.id_eq.symm.trans hx⟩
      · rw [Ledger.traded_post_update, htraded, hemitted, he, List.nil_append,
          List.filterMap_append, hstory.trades_eq.1]
        show _ = _ + 2 * exactSum (List.map _ (trades ++ []))
        rw [List.append_nil]

/-- The ledger is right about what has been `Cancelled`. -/
theorem Agrees.cancelled {r : CancelResult} (h : K.Agrees L d.book.Holds)
    (hc : Desk.Cancelled world id d r d') (he : d.emitted = []) :
    Leaves K L (d'.emitted.foldl Ledger.post L) id d d' ∧
      ∀ o, r = .cancelled o → K.Keeps (d'.emitted.foldl Ledger.post L) o := by
  cases hc with
  | absent _ => exact ⟨leaves_silent h he fun _ hx => hx, fun _ hr => by cases hr⟩
  | dead _ _ _ hdep =>
      exact ⟨leaves_silent h he fun x hx => ((hdep.holds_iff x).mp hx).1, fun _ hr => by cases hr⟩
  | @found o u n d' ho hid _ hdep hu hemitted =>
      subst hid
      obtain ⟨hleaves, hkeeps⟩ := leaves_of_update (o := { o with status := .cancelled }) (d := d)
        (L := L) ((h.keeps o ho).of_same rfl rfl rfl)
        (fun a ha => h.lawful a (List.mem_of_mem_eraseP ha)) hu (by rw [hemitted, he]; rfl)
        (fun x hx => Or.inr ⟨h.keeps x ((hdep.holds_iff x).mp hx).1, ((hdep.holds_iff x).mp hx).2⟩)
        (fun _ _ => rfl) rfl
      exact ⟨hleaves, fun _ hr => by cases hr; exact hkeeps⟩

theorem Keeps.asked {o' : Order} {price : Option Price} {q : Quantity} (h : K.Keeps L o)
    (hset : Order.setRemaining q { o with price } = .ok ⟨⟩ o')
    (hask : ∀ a f asked, K.Right a o.quantity o.remaining → o.filled = .ok f →
      f.add q = .ok asked → K.Right (a.ask asked) asked q) :
    K.Keeps (L.revise o.id (.ask o'.quantity)) o' := by
  obtain ⟨a, ha, hright⟩ := h
  obtain ⟨f, asked, hf, hsum, rfl⟩ := Order.setRemaining_eq_ok hset
  exact ⟨_, Ledger.newest?_revise_self (Account.id_ask asked) ha, hask a f asked hright hf hsum⟩

/-- The ledger is right about an order that `reduce` has lessened in its place. -/
theorem Agrees.lessened {o' : Order} {q : Quantity} {now : Timestamp} {n : Nat} {u : OrderUpdate}
    (h : K.Agrees L d.book.Holds) (ho : d.book.Holds o)
    (hset : Order.setRemaining q o = .ok ⟨⟩ o') (hrew : Book.Rewritten o o' d.book d'.book)
    (hu : OrderUpdate.ofOrder o' now n = .ok u) (hemitted : d'.emitted = [.update u])
    (hask : ∀ a f asked, K.Right a o.quantity o.remaining → o.filled = .ok f →
      f.add q = .ok asked → K.Right (a.ask asked) asked q) :
    Leaves K L (d'.emitted.foldl Ledger.post (L.revise o.id (.ask o'.quantity))) o.id d d' ∧
      K.Keeps (d'.emitted.foldl Ledger.post (L.revise o.id (.ask o'.quantity))) o' := by
  have hid := (Order.same_of_setRemaining hset).id_eq
  have hframe (x : OrderId) (hne : x ≠ o.id) :
      (L.revise o.id (.ask o'.quantity)).newest? x = L.newest? x :=
    Ledger.newest?_revise_ne (Account.id_ask _) hne
  have hothers : ∀ a ∈ (L.revise o.id (.ask o'.quantity)).others o'.id, K.Lawful a := by
    rw [hid, Ledger.others_revise_self (Account.id_ask _)]
    exact fun a ha => h.lawful a (List.mem_of_mem_eraseP ha)
  have hrest (x : Order) (hx : d'.book.Holds x) :
      x = o' ∨ (K.Keeps (L.revise o.id (.ask o'.quantity)) x ∧ x.id ≠ o'.id) := by
    rw [hid]
    exact ((hrew.holds_iff x).mp hx).imp_right fun ⟨hx, hne⟩ =>
      ⟨(h.keeps x hx).of_newest? (hframe x.id hne), hne⟩
  obtain ⟨hleaves, hkeeps⟩ := leaves_of_update (d := d) (L := L)
    ((h.keeps o ho).asked hset hask) hothers hu hemitted hrest
    (fun x hne => hframe x (hid ▸ hne))
    (Ledger.traded_revise_of_eq (fun a => Account.traded_ask o'.quantity a) L o.id)
  rw [hid] at hleaves
  exact ⟨hleaves, hkeeps⟩

/-- The ledger is right about an order that is sent in again. -/
theorem Agrees.requeued {o' : Order} {price : Option Price} {q : Quantity} {b : Book}
    {r : OrderResult} (h : K.Agrees L d.book.Holds) (ho : d.book.Holds o)
    (hdep : Book.Departed o d.book b) (hset : Order.setRemaining q { o with price } = .ok ⟨⟩ o')
    (hent : Desk.Enters { o' with sequence := d.counters.arrivals + 1 } (d.rearrived b))
    (hexec : Desk.Executed world { o' with sequence := d.counters.arrivals + 1 } (d.rearrived b)
      r d') (he : d.emitted = [])
    (hask : ∀ a f asked, K.Right a o.quantity o.remaining → o.filled = .ok f →
      f.add q = .ok asked → K.Right (a.ask asked) asked q) :
    Leaves K L (d'.emitted.foldl Ledger.post (L.revise o.id (.ask r.order.quantity))) o.id d d' ∧
      K.Keeps (d'.emitted.foldl Ledger.post (L.revise o.id (.ask r.order.quantity))) r.order := by
  have hid : o'.id = o.id := (Order.same_of_setRemaining hset).id_eq
  have hframe (x : OrderId) (hne : x ≠ o.id) :
      (L.revise o.id (.ask o'.quantity)).newest? x = L.newest? x :=
    Ledger.newest?_revise_ne (Account.id_ask _) hne
  have hquantity : r.order.quantity = o'.quantity := hexec.quantity_eq hent.sound
  rw [hquantity]
  have hfollows : K.Follows (L.revise o.id (.ask o'.quantity))
      ⟨{ o' with sequence := d.counters.arrivals + 1 }, b⟩ := by
    refine ⟨?_, fun x hx => ?_, fun a ha => h.lawful a ?_⟩
    · exact ((h.keeps o ho).asked hset hask).of_same rfl rfl rfl
    · obtain ⟨hx, hne⟩ := (hdep.holds_iff x).mp hx
      exact (h.keeps x hx).of_newest? (hframe x.id hne)
    · dsimp only at ha
      rw [hid, Ledger.others_revise_self (Account.id_ask _)] at ha
      exact List.mem_of_mem_eraseP ha
  obtain ⟨hleaves, hkeeps⟩ := Follows.executed (d := d.rearrived b) hfollows hexec hent he
  refine ⟨⟨hleaves.agrees, fun x hne hnot => ?_, ?_⟩, hkeeps⟩
  · rw [hleaves.frame x (by dsimp only; rw [hid]; exact hne)
      fun hx => hnot ((Book.Worn.of_departed hdep).has hx), hframe x hne]
  · rw [hleaves.traded_eq,
      Ledger.traded_revise_of_eq (fun a => Account.traded_ask o'.quantity a) L o.id]

/-- The ledger is right about what has been `Modified`, if it is right to change what the account
asks for. -/
theorem Agrees.modified {request : ModifyRequest} {r : ModifyResult}
    (h : K.Agrees L d.book.Holds) (hmod : Desk.Modified world id request d r d')
    (he : d.emitted = []) (hready : d.Ready) (hq : 0 ≤ request.quantity)
    (hask : ∀ o a f asked, d.book.Holds o → K.Right a o.quantity o.remaining → o.filled = .ok f →
      f.add request.quantity = .ok asked → K.Right (a.ask asked) asked request.quantity) :
    Leaves K L (d'.emitted.foldl Ledger.post (L.asked id r)) id d d' ∧
      ∀ res, r = .modified res →
        K.Keeps (d'.emitted.foldl Ledger.post (L.asked id r)) res.order := by
  cases hmod with
  | absent _ => exact ⟨leaves_silent h he fun _ hx => hx, fun _ hr => by cases hr⟩
  | @same o ho hid _ _ =>
      subst hid
      obtain ⟨a, ha, hright⟩ := h.keeps o ho
      have hfix : a.ask o.quantity = a := by rw [← K.quantity_eq hright]; rfl
      have hasked : L.asked o.id (.modified ⟨o, []⟩) = L := Ledger.revise_of_fixed ha hfix
      rw [hasked]
      refine ⟨leaves_silent h he fun _ hx => hx, fun _ hr => ?_⟩
      cases hr
      rw [he]
      exact ⟨a, ha, hright⟩
  | @lessened o o' u n d' ho hid _ _ _ hset hrew hu hemitted _ =>
      subst hid
      obtain ⟨hleaves, hkeeps⟩ := h.lessened ho hset hrew hu (by rw [hemitted, he]; rfl)
        fun a f asked => hask o a f asked ho
      exact ⟨hleaves, fun _ hr => by cases hr; exact hkeeps⟩
  | @requeued o o' b res d' ho hid _ _ hdep hset hexec =>
      subst hid
      have hent := hready.enters ho hq hdep hset
      obtain ⟨hleaves, hkeeps⟩ := h.requeued ho hdep hset hent
        (Desk.executed_of_ok hent.sound hexec) he fun a f asked => hask o a f asked ho
      exact ⟨hleaves, fun _ hr => by cases hr; exact hkeeps⟩

end Desk

end Keeping

end Bourse
