import Mathlib.Algebra.Ring.Int.Defs
import Bourse.Proofs.Run.Basic

/-!
# Ledgers

Whoever follows a run from outside can keep an `Account` of every order: how much it asks
for, what the last update said is left of it and filled, and the trades that have named
it. An account is `opened` when an order is entered, so an order under an identity that
has been used before has an account of its own, and `post` puts an event to the newest
account of the identity it names.

The ledger knows nothing of the books. What it agrees with them in is for the modules that
follow.
-/

namespace Bourse

/-- The exact sum of some quantities, in `atoms`. -/
def exactSum (quantities : List Quantity) : Int := (quantities.map Decimal.atoms).sum

@[simp] theorem exactSum_nil : exactSum [] = 0 := rfl

@[simp] theorem exactSum_cons (q : Quantity) (qs : List Quantity) :
    exactSum (q :: qs) = q.atoms + exactSum qs := List.sum_cons

@[simp] theorem exactSum_append (qs rs : List Quantity) :
    exactSum (qs ++ rs) = exactSum qs + exactSum rs := by
  unfold exactSum
  rw [List.map_append, List.sum_append]

theorem exactSum_nonneg {qs : List Quantity} (h : ∀ q ∈ qs, 0 ≤ q.atoms) : 0 ≤ exactSum qs := by
  induction qs with
  | nil => exact Int.le_refl 0
  | cons q qs ih =>
      obtain ⟨hq, hqs⟩ := List.forall_mem_cons.mp h
      rw [exactSum_cons]
      exact Int.add_nonneg hq (ih hqs)

/-- What is known of an order from outside. The trades are the latest first. -/
structure Account where
  id : OrderId
  quantity : Quantity
  remaining : Quantity
  filled : Quantity
  trades : List Quantity
deriving DecidableEq

namespace Account

/-- The account of an order that has just been entered. -/
def opened (id : OrderId) (quantity : Quantity) : Account := ⟨id, quantity, quantity, 0, []⟩

/-- A trade is added. -/
def trade (q : Quantity) (a : Account) : Account := { a with trades := q :: a.trades }

/-- An update is taken down. -/
def tell (remaining filled : Quantity) (a : Account) : Account := { a with remaining, filled }

/-- The order asks for another quantity in all. -/
def ask (quantity : Quantity) (a : Account) : Account := { a with quantity }

/-- The exact sum of the trades. -/
def traded (a : Account) : Int := exactSum a.trades

/-- The account says of an order what the order says of itself. -/
structure Shows (a : Account) (o : Order) : Prop where
  quantity_eq : a.quantity.atoms = o.quantity.atoms
  remaining_eq : a.remaining.atoms = o.remaining.atoms
  filled_eq : ∃ f, o.filled = .ok f ∧ a.filled.atoms = f.atoms

theorem id_trade (q : Quantity) (a : Account) : (a.trade q).id = a.id := rfl

theorem id_tell (remaining filled : Quantity) (a : Account) :
    (a.tell remaining filled).id = a.id := rfl

theorem id_ask (quantity : Quantity) (a : Account) : (a.ask quantity).id = a.id := rfl

@[simp] theorem traded_opened (id : OrderId) (quantity : Quantity) :
    (opened id quantity).traded = 0 := rfl

@[simp] theorem traded_trade (q : Quantity) (a : Account) :
    (a.trade q).traded = a.traded + q.atoms := by
  unfold traded trade
  rw [exactSum_cons, Int.add_comm]

@[simp] theorem traded_tell (remaining filled : Quantity) (a : Account) :
    (a.tell remaining filled).traded = a.traded := rfl

@[simp] theorem traded_ask (quantity : Quantity) (a : Account) :
    (a.ask quantity).traded = a.traded := rfl

end Account

/-- What a `Trade` adds to the account of an order. -/
def Trade.adds (t : Trade) (id : OrderId) : Int :=
  (if t.maker = id then t.quantity.atoms else 0) + if t.taker = id then t.quantity.atoms else 0

/-- An event names an order, other than to reject it. -/
def Event.Names (id : OrderId) : Event → Prop
  | .trade t => t.maker = id ∨ t.taker = id
  | .update u => u.rejectReason = none ∧ u.orderId = id

/-- Every `Account` of a run, the latest first. -/
abbrev Ledger := List Account

namespace Ledger

/-- The newest account of an identity. -/
def newest? (L : Ledger) (id : OrderId) : Option Account := L.find? fun a => a.id = id

/-- Changes the `newest?` account of an identity. -/
def revise (id : OrderId) (change : Account → Account) : Ledger → Ledger
  | [] => []
  | a :: rest => if a.id = id then change a :: rest else a :: revise id change rest

/-- All accounts but the `newest?` of an identity. -/
def others (L : Ledger) (id : OrderId) : Ledger := L.eraseP fun a => a.id = id

/-- Posts an `Event`. A rejection says nothing about an order that has been entered. -/
def post (L : Ledger) : Event → Ledger
  | .trade t => (L.revise t.maker (.trade t.quantity)).revise t.taker (.trade t.quantity)
  | .update u =>
    if u.rejectReason.isSome then L else L.revise u.orderId (.tell u.remaining u.filled)

/-- Takes down what an order asks for after a `modify`. -/
def asked (L : Ledger) (id : OrderId) : ModifyResult → Ledger
  | .modified r => L.revise id (.ask r.order.quantity)
  | .notFound | .rejected _ => L

/-- The exact sum of the trades of all accounts. -/
def traded (L : Ledger) : Int := (L.map Account.traded).sum

/-- The sum of what all accounts have been told is filled. -/
def filled (L : Ledger) : Int := (L.map fun a => a.filled.atoms).sum

section Revise

variable {L : Ledger} {id id' : OrderId} {change change' : Account → Account} {a : Account}

@[simp] theorem newest?_cons (a : Account) (L : Ledger) (id : OrderId) :
    newest? (a :: L) id = if a.id = id then some a else newest? L id := by
  unfold newest?
  rw [List.find?_cons]
  by_cases h : a.id = id <;> simp [h]

theorem mem_of_newest? (h : L.newest? id = some a) : a ∈ L := List.mem_of_find?_eq_some h

theorem newest?_revise (hid : ∀ a, (change a).id = a.id) (L : Ledger) (id id' : OrderId) :
    (L.revise id change).newest? id' =
      if id' = id then (L.newest? id).map change else L.newest? id' := by
  induction L with
  | nil => by_cases h : id' = id <;> simp [revise, newest?, h]
  | cons a L ih =>
      rw [revise]
      by_cases ha : a.id = id
      · subst ha
        rw [if_pos rfl]
        by_cases h : id' = a.id
        · simp [h, hid]
        · simp [h, hid, Ne.symm h]
      · rw [if_neg ha, newest?_cons, ih]
        by_cases h : id' = id
        · subst h
          simp [ha]
        · simp [h]

theorem newest?_revise_self (hid : ∀ a, (change a).id = a.id) (h : L.newest? id = some a) :
    (L.revise id change).newest? id = some (change a) := by
  rw [newest?_revise hid, if_pos rfl, h]
  rfl

theorem newest?_revise_ne (hid : ∀ a, (change a).id = a.id) (hne : id' ≠ id) :
    (L.revise id change).newest? id' = L.newest? id' := by
  rw [newest?_revise hid, if_neg hne]

theorem mem_cases (h : a ∈ L) (id : OrderId) : L.newest? id = some a ∨ a ∈ L.others id := by
  induction L with
  | nil => cases h
  | cons x L ih =>
      unfold others
      rw [newest?_cons, List.eraseP_cons]
      by_cases hx : x.id = id
      · rcases List.mem_cons.mp h with rfl | h
        · simp [hx]
        · simp [hx, h]
      · rcases List.mem_cons.mp h with rfl | h
        · simp [hx]
        · have := ih h
          unfold others at this
          simp [hx, this, or_left_comm]

theorem others_revise_self (hid : ∀ a, (change a).id = a.id) (L : Ledger) (id : OrderId) :
    (L.revise id change).others id = L.others id := by
  induction L with
  | nil => rfl
  | cons x L ih =>
      unfold others at ih ⊢
      rw [revise]
      by_cases hx : x.id = id
      · simp [hx, hid]
      · simp [hx, ih]

theorem others_revise_ne (hid : ∀ a, (change a).id = a.id) (hne : id ≠ id') (L : Ledger) :
    (L.revise id change).others id' = (L.others id').revise id change := by
  induction L with
  | nil => rfl
  | cons x L ih =>
      unfold others at ih ⊢
      rw [revise]
      by_cases hx : x.id = id
      · subst hx
        simp [hid, hne, revise]
      · by_cases hx' : x.id = id'
        · subst hx'
          simp [hx]
        · simp [hx, hx', ih, revise]

theorem newest?_others_ne (hne : id ≠ id') (L : Ledger) :
    (L.others id').newest? id = L.newest? id := by
  induction L with
  | nil => rfl
  | cons x L ih =>
      unfold others at ih ⊢
      by_cases hx : x.id = id'
      · subst hx
        simp [Ne.symm hne]
      · simp [hx, ih]

theorem revise_revise (hid : ∀ a, (change a).id = a.id) (L : Ledger) (id : OrderId) :
    (L.revise id change).revise id change' = L.revise id (change' ∘ change) := by
  induction L with
  | nil => rfl
  | cons x L ih =>
      rw [revise, revise]
      by_cases hx : x.id = id
      · simp [hx, hid, revise]
      · simp [hx, ih, revise]

theorem revise_of_fixed (h : L.newest? id = some a) (hfix : change a = a) :
    L.revise id change = L := by
  induction L with
  | nil => rfl
  | cons x L ih =>
      rw [revise]
      rw [newest?_cons] at h
      split
      · next hid =>
          rw [if_pos hid] at h
          cases h
          rw [hfix]
      · next hid =>
          rw [if_neg hid] at h
          rw [ih h]

theorem forall_revise {P : Account → Prop} (h : ∀ a ∈ L, P a)
    (hnew : ∀ a, L.newest? id = some a → P (change a)) : ∀ a ∈ L.revise id change, P a := by
  induction L with
  | nil => exact h
  | cons x L ih =>
      rw [revise]
      rw [newest?_cons] at hnew
      obtain ⟨hx, hL⟩ := List.forall_mem_cons.mp h
      split
      · next hid => exact List.forall_mem_cons.mpr ⟨hnew x (if_pos hid), hL⟩
      · next hid =>
          refine List.forall_mem_cons.mpr ⟨hx, ih hL fun a ha => hnew a ?_⟩
          rw [if_neg hid, ha]

theorem forall_of_others {P : Account → Prop} (id : OrderId) (h : ∀ a ∈ L.others id, P a)
    (hnew : ∀ a, L.newest? id = some a → P a) : ∀ a ∈ L, P a :=
  fun a ha => (mem_cases ha id).elim (hnew a) (h a)

/-! ## Sums -/

@[simp] theorem traded_cons (a : Account) (L : Ledger) :
    traded (a :: L) = a.traded + traded L := by
  unfold traded
  rw [List.map_cons, List.sum_cons]

theorem traded_revise_of_eq (h : ∀ a, (change a).traded = a.traded) (L : Ledger) (id : OrderId) :
    (L.revise id change).traded = L.traded := by
  induction L with
  | nil => rfl
  | cons x L ih =>
      rw [revise]
      split <;> simp [h, ih]

theorem traded_revise_trade (h : L.newest? id = some a) (q : Quantity) :
    (L.revise id (.trade q)).traded = L.traded + q.atoms := by
  induction L with
  | nil => cases h
  | cons x L ih =>
      rw [revise]
      rw [newest?_cons] at h
      split
      · simp only [traded_cons, Account.traded_trade]
        omega
      · next hid =>
          rw [if_neg hid] at h
          rw [traded_cons, traded_cons, ih h]
          omega

end Revise

/-! ## Posting -/

section Post

variable {L : Ledger} {id : OrderId} {a : Account}

theorem post_trade (L : Ledger) (t : Trade) :
    L.post (.trade t) = (L.revise t.maker (.trade t.quantity)).revise t.taker (.trade t.quantity) :=
  rfl

theorem post_update (L : Ledger) {u : OrderUpdate} (h : u.rejectReason = none) :
    L.post (.update u) = L.revise u.orderId (.tell u.remaining u.filled) := by
  show (if u.rejectReason.isSome then L else _) = _
  rw [h]
  rfl

theorem post_rejected (L : Ledger) {u : OrderUpdate} (h : u.rejectReason.isSome) :
    L.post (.update u) = L := if_pos h

theorem traded_post_update (L : Ledger) (u : OrderUpdate) :
    (L.post (.update u)).traded = L.traded := by
  cases hr : u.rejectReason with
  | some reason => rw [post_rejected L (by rw [hr]; rfl)]
  | none => rw [post_update L hr, traded_revise_of_eq fun a => Account.traded_tell _ _ a]

theorem newest?_post_of_not_names {e : Event} (h : ¬ e.Names id) (L : Ledger) :
    (L.post e).newest? id = L.newest? id := by
  cases e with
  | trade t =>
      have hne := not_or.mp h
      rw [post_trade, newest?_revise_ne (Account.id_trade _) (Ne.symm hne.2),
        newest?_revise_ne (Account.id_trade _) (Ne.symm hne.1)]
  | update u =>
      cases hr : u.rejectReason with
      | some reason => rw [post_rejected L (by rw [hr]; rfl)]
      | none =>
          rw [post_update L hr, newest?_revise_ne (Account.id_tell _ _)]
          exact fun hid => h ⟨hr, hid.symm⟩

theorem newest?_posts_of_not_names {events : List Event} (h : ∀ e ∈ events, ¬ e.Names id)
    (L : Ledger) : (events.foldl post L).newest? id = L.newest? id := by
  induction events generalizing L with
  | nil => rfl
  | cons e rest ih =>
      rw [List.foldl_cons, ih (fun x hx => h x (List.mem_cons_of_mem e hx)),
        newest?_post_of_not_names (h e List.mem_cons_self)]

theorem newest?_revise_trade (h : L.newest? id = some a) (id' : OrderId) (q : Quantity) :
    ∃ a', (L.revise id' (.trade q)).newest? id = some a' ∧
      a'.traded = a.traded + if id' = id then q.atoms else 0 := by
  by_cases hid : id' = id
  · subst hid
    refine ⟨_, newest?_revise_self (Account.id_trade q) h, ?_⟩
    rw [if_pos rfl, Account.traded_trade]
  · refine ⟨a, by rw [newest?_revise_ne (Account.id_trade q) (Ne.symm hid), h], ?_⟩
    rw [if_neg hid, Int.add_zero]

theorem newest?_revise_tell (h : L.newest? id = some a) (id' : OrderId) (q f : Quantity) :
    ∃ a', (L.revise id' (.tell q f)).newest? id = some a' ∧ a'.traded = a.traded := by
  by_cases hid : id' = id
  · subst hid
    exact ⟨_, newest?_revise_self (Account.id_tell q f) h, rfl⟩
  · exact ⟨a, by rw [newest?_revise_ne (Account.id_tell q f) (Ne.symm hid), h], rfl⟩

/-- Events that `post` puts down add to the `newest?` account of an order what their trades bring
it. -/
theorem newest?_posts (h : L.newest? id = some a) (events : List Event) :
    ∃ a', (events.foldl post L).newest? id = some a' ∧
      a'.traded = a.traded + ((events.filterMap Event.trade?).map (·.adds id)).sum := by
  induction events generalizing L a with
  | nil => exact ⟨a, h, (Int.add_zero _).symm⟩
  | cons e rest ih =>
      cases e with
      | trade t =>
          obtain ⟨a₁, h₁, hmaker⟩ := newest?_revise_trade h t.maker t.quantity
          obtain ⟨a₂, h₂, htaker⟩ := newest?_revise_trade h₁ t.taker t.quantity
          obtain ⟨a', h', hrest⟩ := ih (L := L.post (.trade t)) h₂
          refine ⟨a', h', ?_⟩
          show _ = _ + (List.map _ (t :: _)).sum
          rw [List.map_cons, List.sum_cons, hrest, htaker, hmaker, Trade.adds]
          omega
      | update u =>
          cases hr : u.rejectReason with
          | some reason =>
              rw [List.foldl_cons, post_rejected L (by rw [hr]; rfl)]
              exact ih h
          | none =>
              rw [List.foldl_cons, post_update L hr]
              obtain ⟨a₁, h₁, htold⟩ := newest?_revise_tell h u.orderId u.remaining u.filled
              obtain ⟨a', h', hrest⟩ := ih h₁
              exact ⟨a', h', by rw [hrest, htold]; rfl⟩

/-- Where a trade has been posted to both its orders, and one of them is told how it stands. -/
theorem newest?_dealt {maker taker : OrderId} {b : Account} (hne : maker ≠ taker)
    (ha : L.newest? maker = some a) (hb : L.newest? taker = some b) (q r f : Quantity)
    (id : OrderId) :
    (((L.revise maker (.trade q)).revise taker (.trade q)).revise maker (.tell r f)).newest? id =
      if id = maker then some ((a.trade q).tell r f)
      else if id = taker then some (b.trade q) else L.newest? id := by
  rw [newest?_revise (Account.id_tell _ _), newest?_revise_ne (Account.id_trade _) hne,
    newest?_revise_self (Account.id_trade _) ha, newest?_revise (Account.id_trade _),
    newest?_revise_ne (Account.id_trade _) (Ne.symm hne), hb]
  split
  · rfl
  · next hidne =>
      rw [newest?_revise_ne (Account.id_trade _) hidne]
      rfl

theorem traded_dealt {maker taker : OrderId} {b : Account} (hne : maker ≠ taker)
    (ha : L.newest? maker = some a) (hb : L.newest? taker = some b) (q r f : Quantity) :
    (((L.revise maker (.trade q)).revise taker (.trade q)).revise maker (.tell r f)).traded =
      L.traded + 2 * q.atoms := by
  have hb' : (L.revise maker (.trade q)).newest? taker = some b := by
    rw [newest?_revise_ne (Account.id_trade _) (Ne.symm hne), hb]
  rw [traded_revise_of_eq fun x => Account.traded_tell r f x, traded_revise_trade hb',
    traded_revise_trade ha]
  omega

end Post

end Ledger

/-! ## The ledger of a run -/

/-- An intent that passes its checks under an identity that is free is entered. -/
def Engine.enters (e : Engine) (world : Surroundings) (intent : OrderIntent) : Bool :=
  match e.lookup? intent.symbol with
  | none => false
  | some (_, slot) =>
    match Engine.checkIntent slot.config intent with
    | .error _ => false
    | .ok () => !e.routes.contains (intent.orderId.getD world.orderId)

theorem Engine.enters_iff {e : Engine} {world : Surroundings} {intent : OrderIntent} :
    e.enters world intent = true ↔ ∃ i slot, e.Admits world intent i slot := by
  unfold Engine.enters
  constructor
  · intro h
    split at h
    · cases h
    · next i slot hl =>
        split at h
        · cases h
        · next hc =>
            refine ⟨i, slot, hl, hc, ?_⟩
            show e.routes.get? (intent.orderId.getD world.orderId) = none
            simpa [Table.contains] using h
  · rintro ⟨i, slot, ha⟩
    have hfree : e.routes.get? (intent.orderId.getD world.orderId) = none := ha.free
    rw [ha.found]
    dsimp only
    rw [ha.checked]
    simpa [Table.contains] using hfree

/-- The order that an `Answer` tells of. -/
def Answer.order? : Answer → Option Order
  | .submitted (.ok (.ok r)) | .modified (.ok (.modified r)) => some r.order
  | .cancelled (.ok (.cancelled o)) => some o
  | _ => none

namespace Ledger

/-- What is taken down before the events of a turn: the order it enters, or what it has made an
order ask for. -/
def prepare (L : Ledger) (t : Turn) : Ledger :=
  match t.call, t.answer with
  | .submit world intent, _ =>
    if t.before.enters world intent then
      .opened (intent.orderId.getD world.orderId) intent.quantity :: L
    else L
  | .modify _ id _, .modified (.ok r) => L.asked id r
  | _, _ => L

/-- The ledger after a `Turn`: what `prepare` takes down, and then its events. -/
def enter (L : Ledger) (t : Turn) : Ledger := t.events.foldl post (L.prepare t)

end Ledger

/-- The accounts of a run, by `enter` from the empty ledger. -/
def accounts : List Turn → Ledger
  | [] => []
  | t :: past => (accounts past).enter t

end Bourse
