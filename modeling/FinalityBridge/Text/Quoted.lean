import FinalityBridge.Bytes

/-!
# Quoted characters

A message that names a byte shows it as the character of that code, between single quotes. What
would be unclear there is escaped. Main statement: only visible characters are shown
(`isVisible_escape`).
-/

namespace FinalityBridge.Text

/-- Whether a byte is the code of a character that leaves ink, or of the blank. The rest are the
control characters, the blank that does not break (0xa0) and the hyphen that does not show (0xad). -/
def IsVisible (code : UInt8) : Prop := (0x20 ≤ code ∧ code < 0x7f) ∨ (0xa0 < code ∧ code ≠ 0xad)

instance (code : UInt8) : Decidable (IsVisible code) := inferInstanceAs (Decidable (_ ∨ _))

/-- The characters that stand for a byte between single quotes: an escape of its own for the quote,
the backslash and the four most common invisible characters, the code in hexadecimal for the other
invisible ones, and the character itself for all others. -/
def escape (code : UInt8) : List Char :=
  if code = 0x00 then ['\\', '0']
  else if code = 0x09 then ['\\', 't']
  else if code = 0x0a then ['\\', 'n']
  else if code = 0x0d then ['\\', 'r']
  else if code = 0x27 ∨ code = 0x5c then ['\\', Char.ofUInt8 code]
  else if IsVisible code then [Char.ofUInt8 code]
  else ['\\', 'u', '\x7b'] ++ Nat.toDigits 16 code.toNat ++ ['\x7d']

def quote (code : UInt8) : String := "'" ++ String.ofList (escape code) ++ "'"

/-- An escaped byte shows nothing but visible characters. -/
theorem isVisible_escape (code : UInt8) : ∀ c ∈ escape code, IsVisible c.toUInt8 := by
  have h : ((List.range 256).all fun n =>
      (escape (UInt8.ofNat n)).all fun c => decide (IsVisible c.toUInt8)) = true := by
    decide +kernel
  simp only [List.all_eq_true, List.mem_range, decide_eq_true_eq] at h
  have := h code.toNat code.toNat_lt
  rwa [UInt8.ofNat_toNat] at this

end FinalityBridge.Text
