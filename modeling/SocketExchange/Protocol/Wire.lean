import SocketExchange.Protocol.Grammar
import SocketExchange.Protocol.Texts

/-!
# Messages can be told apart

The server writes its messages with one formatting helper each, and nothing in the
repository reads them back.  A client that wants to can: no two messages have the same
text.

The reason of an ERROR and the name of an instrument are quoted as they are, so a text is
taken apart from both ends.  The word at its front says which helper made it, and a number
holds no space, so the last space and the one before it say where the quoted name ends.
-/

namespace SocketExchange.Protocol

open SocketExchange.Lib.Bytes

/-! ## Numbers -/

theorem decimal_negSucc (n : Nat) : decimal (Int.negSucc n) = 45 :: decimal (n + 1 : Nat) := by
  show ascii ("-" ++ (n + 1).repr) = ascii "-" ++ ascii (n + 1).repr
  simp [ascii]

theorem no_minus_decimal (n : Nat) : (45 : UInt8) ∉ decimal n :=
  fun hmem => absurd (digits_decimal n 45 hmem) (by decide)

theorem no_space_decimal (n : Int) : (32 : UInt8) ∉ decimal n := by
  have hnat : ∀ n : Nat, (32 : UInt8) ∉ decimal n :=
    fun n hmem => absurd (digits_decimal n 32 hmem) (by decide)
  cases n with
  | ofNat n => exact hnat n
  | negSucc n =>
      rw [decimal_negSucc, List.mem_cons]
      rintro (heq | hmem)
      · cases heq
      · exact hnat _ hmem

/-- **No two numbers are printed alike.** -/
theorem decimal_injective : Function.Injective decimal := by
  intro m n h
  cases m with
  | ofNat m =>
      cases n with
      | ofNat n =>
          have hvalue := congrArg value h
          rw [Int.ofNat_eq_natCast, Int.ofNat_eq_natCast, value_decimal, value_decimal] at hvalue
          rw [hvalue]
      | negSucc n =>
          rw [decimal_negSucc] at h
          exact absurd (h ▸ List.mem_cons_self) (no_minus_decimal m)
  | negSucc m =>
      cases n with
      | ofNat n =>
          rw [decimal_negSucc] at h
          exact absurd (h ▸ List.mem_cons_self) (no_minus_decimal n)
      | negSucc n =>
          rw [decimal_negSucc, decimal_negSucc, List.cons.injEq] at h
          have hvalue := congrArg value h.2
          rw [value_decimal, value_decimal] at hvalue
          omega

/-! ## Messages -/

/-- A text is taken apart at its last space. -/
theorem split_last_space {a a' b b' : Bytes} (hb : (32 : UInt8) ∉ b) (hb' : (32 : UInt8) ∉ b')
    (h : a ++ ascii " " ++ b = a' ++ ascii " " ++ b') : a = a' ∧ b = b' := by
  rw [List.append_assoc, List.append_assoc] at h
  rcases List.append_eq_append_iff.mp h with ⟨rest, ha', hrest⟩ | ⟨rest, ha, hrest⟩
  · cases rest with
    | nil =>
        rw [List.append_nil] at ha'
        exact ⟨ha'.symm, List.append_cancel_left hrest⟩
    | cons x rest =>
        have htail : b = rest ++ ascii " " ++ b' := by
          have hcons := List.cons.inj hrest
          rw [List.append_assoc]
          exact hcons.2
        exact absurd (htail ▸ (by simp [ascii])) hb
  · cases rest with
    | nil =>
        rw [List.append_nil] at ha
        exact ⟨ha, (List.append_cancel_left hrest).symm⟩
    | cons x rest =>
        have htail : b' = rest ++ ascii " " ++ b := by
          have hcons := List.cons.inj hrest
          rw [List.append_assoc]
          exact hcons.2
        exact absurd (htail ▸ (by simp [ascii])) hb'

/-- A notice is taken apart from its end. -/
theorem notice_inj {head instrument instrument' : Bytes} {quantity quantity' price price' : Int}
    (h : head ++ ascii " " ++ instrument ++ ascii " " ++ decimal quantity ++ ascii " " ++
        decimal price =
      head ++ ascii " " ++ instrument' ++ ascii " " ++ decimal quantity' ++ ascii " " ++
        decimal price') :
    instrument = instrument' ∧ quantity = quantity' ∧ price = price' := by
  obtain ⟨hfront, hprice⟩ := split_last_space (no_space_decimal _) (no_space_decimal _) h
  obtain ⟨hname, hquantity⟩ := split_last_space (no_space_decimal _) (no_space_decimal _) hfront
  exact ⟨List.append_cancel_left hname, decimal_injective hquantity, decimal_injective hprice⟩

/-- Which helper makes a message. -/
def Response.helper : Response → Fin 7
  | .ok => 0
  | .error _ => 1
  | .orderAccepted _ => 2
  | .orderCancelled _ => 3
  | .bought _ _ _ => 4
  | .sold _ _ _ => 5
  | .trade _ _ _ => 6

/-- The first bytes of a message, by which its helper is known. -/
def mark : Fin 7 → Bytes
  | 0 => ascii "OK"
  | 1 => ascii "E"
  | 2 => ascii "ORDER_A"
  | 3 => ascii "ORDER_C"
  | 4 => ascii "B"
  | 5 => ascii "S"
  | 6 => ascii "T"

theorem mark_isPrefix (message : Response) : mark message.helper <+: message.body := by
  cases message with
  | ok => exact List.prefix_rfl
  | error reason => exact ⟨ascii "RROR " ++ reason, rfl⟩
  | orderAccepted orderId => exact ⟨ascii "CCEPTED " ++ decimal orderId, rfl⟩
  | orderCancelled orderId => exact ⟨ascii "ANCELLED " ++ decimal orderId, rfl⟩
  | bought instrument quantity price =>
      exact ⟨ascii "OUGHT" ++ ascii " " ++ instrument ++ ascii " " ++ decimal quantity ++
        ascii " " ++ decimal price, rfl⟩
  | sold instrument quantity price =>
      exact ⟨ascii "OLD" ++ ascii " " ++ instrument ++ ascii " " ++ decimal quantity ++
        ascii " " ++ decimal price, rfl⟩
  | trade instrument quantity price =>
      exact ⟨ascii "RADE" ++ ascii " " ++ instrument ++ ascii " " ++ decimal quantity ++
        ascii " " ++ decimal price, rfl⟩

/-- Messages of the same text come from the same helper. -/
theorem helper_of_body {a b : Response} (h : a.body = b.body) : a.helper = b.helper := by
  have hapart : ∀ i j, mark i <+: mark j → i = j := by decide
  have hb : mark b.helper <+: a.body := h ▸ mark_isPrefix b
  rcases List.prefix_or_prefix_of_prefix (mark_isPrefix a) hb with hmarks | hmarks
  · exact hapart _ _ hmarks
  · exact (hapart _ _ hmarks).symm

/-- **No two messages have the same text.** -/
theorem body_injective : Function.Injective Response.body := by
  intro a b h
  have hhelper := helper_of_body h
  cases a with
  | ok => cases b <;> first | rfl | cases hhelper
  | error reason =>
      cases b with
      | error reason' => rw [List.append_cancel_left h]
      | _ => cases hhelper
  | orderAccepted orderId =>
      cases b with
      | orderAccepted orderId' => rw [decimal_injective (List.append_cancel_left h)]
      | _ => cases hhelper
  | orderCancelled orderId =>
      cases b with
      | orderCancelled orderId' => rw [decimal_injective (List.append_cancel_left h)]
      | _ => cases hhelper
  | bought instrument quantity price =>
      cases b with
      | bought instrument' quantity' price' =>
          obtain ⟨rfl, rfl, rfl⟩ := notice_inj h
          rfl
      | _ => cases hhelper
  | sold instrument quantity price =>
      cases b with
      | sold instrument' quantity' price' =>
          obtain ⟨rfl, rfl, rfl⟩ := notice_inj h
          rfl
      | _ => cases hhelper
  | trade instrument quantity price =>
      cases b with
      | trade instrument' quantity' price' =>
          obtain ⟨rfl, rfl, rfl⟩ := notice_inj h
          rfl
      | _ => cases hhelper

end SocketExchange.Protocol
