import Bourse.Config.Error

/-!
# Queues that do not start

A queue that a configuration asks for may not come up. The configuration may be refused,
but it may also be sound and ask for more than there can be: more places than a queue can
count (`ringBound`) or hold (`addressBound`), or a worker with an impossible name.
-/

namespace Bourse

/-- Why a queue does not start. -/
inductive StartError where
  /-- Its configuration is refused. -/
  | refused (e : ConfigError)
  /-- A ring cannot count so many places. -/
  | ringTooLarge
  /-- There are no addresses for so many places. -/
  | outOfAddresses
  /-- The name of a worker holds a null character. -/
  | nullInName (name : String)
  /-- A mailbox cannot count so many places. -/
  | tooManyPermits
deriving DecidableEq

namespace StartError

/-- A ring counts fewer places than this. -/
def ringBound : Nat := 4611686018427387904

/-- Fewer bytes than this have addresses. -/
def addressBound : Nat := 9223372036854775808

/-- A mailbox counts so many places at most. -/
def maxPermits : Nat := 2305843009213693951

/-- Where the first null byte of a name is, and all its bytes. -/
def nullMessage (name : String) : String :=
  let bytes := name.toUTF8.toList.map UInt8.toNat
  let place := bytes.findIdx (· = 0)
  "NulError(" ++ toString place ++ ", [" ++ ", ".intercalate (bytes.map toString) ++ "])"

/-- The words in which it is reported that a queue does not start. -/
def message : StartError → String
  | .refused e => e.message
  | .ringTooLarge => "bounded channel capacity is too large"
  | .outOfAddresses => "capacity overflow"
  | .nullInName name => "thread name may not contain interior null bytes: " ++ nullMessage name
  | .tooManyPermits =>
    "a semaphore may not have more than MAX_PERMITS permits (" ++ toString maxPermits ++ ")"

end StartError

end Bourse
