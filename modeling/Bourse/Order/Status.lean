import Bourse.Named

/-!
# The life of an order

An order starts out `new`. Fills carry it through `partiallyFilled` to `filled`, and as
long as it is live it can be cancelled; only a new order can be rejected. The last three
statuses are terminal: nothing leads out of them (`after?`).
-/

namespace Bourse

/-- Where an order stands in its life. -/
inductive OrderStatus where
  | new
  | partiallyFilled
  | filled
  | cancelled
  | rejected
deriving DecidableEq

/-- What can happen to an order. -/
inductive OrderTransition where
  | reject
  | partialFill
  | fill
  | cancel
deriving DecidableEq

instance : Named OrderStatus where
  values := [.new, .partiallyFilled, .filled, .cancelled, .rejected]
  name
    | .new => "New"
    | .partiallyFilled => "PartiallyFilled"
    | .filled => "Filled"
    | .cancelled => "Cancelled"
    | .rejected => "Rejected"

instance : Named OrderTransition where
  values := [.reject, .partialFill, .fill, .cancel]
  name
    | .reject => "Reject"
    | .partialFill => "PartialFill"
    | .fill => "Fill"
    | .cancel => "Cancel"

namespace OrderStatus

/-- Nothing more happens to the order. -/
def isTerminal : OrderStatus → Bool
  | .new | .partiallyFilled => false
  | .filled | .cancelled | .rejected => true

/-- The order can still trade and can be cancelled. -/
def isLive : OrderStatus → Bool
  | .new | .partiallyFilled => true
  | .filled | .cancelled | .rejected => false

/-- The status after a transition; none if the transition is not allowed. -/
def after? : OrderStatus → OrderTransition → Option OrderStatus
  | .new, .reject => some .rejected
  | .new, .partialFill | .partiallyFilled, .partialFill => some .partiallyFilled
  | .new, .fill | .partiallyFilled, .fill => some .filled
  | .new, .cancel | .partiallyFilled, .cancel => some .cancelled
  | _, _ => none

theorem isTerminal_eq_not_isLive (s : OrderStatus) : s.isTerminal = !s.isLive := by
  cases s <;> rfl

end OrderStatus

end Bourse
