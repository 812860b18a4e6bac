import Bourse.Book.Basic

/-!
# Snapshots

What a book shows of itself: prices and sums of its leading levels (`Ladder.depth`), and
from the first of them the spread and the price in the middle.
-/

namespace Bourse

/-- The leading levels of a book, best first. -/
structure BookSnapshot where
  symbol : String
  bids : List (Price × Quantity)
  asks : List (Price × Quantity)
  spread : Option Price
  mid : Option Price
deriving DecidableEq

namespace BookSnapshot

/-- The middle of two prices, if their sum fits. -/
def middle (bid ask : Price) : Except Fault (Option Price) :=
  match bid.add? ask with
  | none => .ok none
  | some sum => (orFault (sum.div two)).map some
where
  two : Decimal := .whole 2 (by decide)

/-- The snapshot with these levels. -/
def ofDepth (symbol : String) (bids asks : List (Price × Quantity)) :
    Except Fault BookSnapshot :=
  match bids, asks with
  | (bid, _) :: _, (ask, _) :: _ => do
    let spread ← orFault (ask.sub bid)
    let mid ← middle bid ask
    return ⟨symbol, bids, asks, some spread, mid⟩
  | _, _ => .ok ⟨symbol, bids, asks, none, none⟩

/-- The highest price bid. -/
def bestBid? (s : BookSnapshot) : Option Price := s.bids.head?.map Prod.fst

/-- The lowest price asked. -/
def bestAsk? (s : BookSnapshot) : Option Price := s.asks.head?.map Prod.fst

/-- The sum of the quantities shown on a side. -/
def totalOf (levels : List (Price × Quantity)) : Quantity :=
  levels.foldl (fun sum level => sum.saturatingAdd level.2) 0

/-- The quantity bid for. -/
def totalBid (s : BookSnapshot) : Quantity := totalOf s.bids

/-- The quantity on offer. -/
def totalAsk (s : BookSnapshot) : Quantity := totalOf s.asks

end BookSnapshot

/-- The first `n` levels of both sides. -/
def Book.snapshot (b : Book) (n : Nat) : Except Fault BookSnapshot :=
  BookSnapshot.ofDepth b.symbol (b.bids.depth n) (b.asks.depth n)

end Bourse
