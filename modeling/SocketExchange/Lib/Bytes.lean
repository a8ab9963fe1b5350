/-!
# Byte strings and unordered iteration

A C++ `std::string` is a sequence of bytes with no encoding attached, so it is
modelled by `List UInt8` and not by `String`.  Literals stay readable through
`ascii`, which the kernel evaluates.

`HashOrder` stands for the one thing the C++ standard leaves open about the
unordered containers: the order in which their elements are walked.  Every
definition that walks one takes a `HashOrder`, and every theorem about it is
therefore a theorem about all orders.
-/

namespace SocketExchange.Lib.Bytes

/-- The contents of a `std::string`. -/
abbrev Bytes := List UInt8

/-- The bytes of an ASCII literal. -/
def ascii (s : String) : Bytes := s.toList.map fun c => c.toNat.toUInt8

/-- `std::to_string` of a signed integer. -/
def decimal (n : Int) : Bytes := ascii (toString n)

/-- The byte `'\n'`. -/
def newline : UInt8 := 10

/-- The byte `'\r'`. -/
def carriageReturn : UInt8 := 13

/-- An iteration order for unordered containers: each element is visited once,
in an order that is not specified. -/
structure HashOrder where
  walk : {α : Type} → List α → List α
  walk_perm : ∀ {α : Type} (l : List α), (walk l).Perm l

/-- The order in which the elements happen to be stored. -/
def HashOrder.stored : HashOrder := ⟨id, fun l => List.Perm.refl l⟩

theorem HashOrder.mem_walk (order : HashOrder) {α : Type} {l : List α} {a : α} :
    a ∈ order.walk l ↔ a ∈ l :=
  (order.walk_perm l).mem_iff

end SocketExchange.Lib.Bytes
