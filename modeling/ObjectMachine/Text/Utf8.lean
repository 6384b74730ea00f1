/-!
# ObjectMachine.Text.Utf8

Byte strings read as UTF-8.

* `decode? b` — the text `b` encodes, if it is well formed.
* `lossy b` — the text `b` encodes, with the replacement character for each malformed part.

A malformed part is the longest piece that could still begin a character: a lead byte and the
continuation bytes that fit it.
-/

namespace ObjectMachine
namespace Text

/-- Stands for a malformed part. -/
def replacement : Char := Char.ofNat 0xFFFD

/-- A byte that may follow the second byte of a character. -/
def isContinuation (b : UInt8) : Bool :=
  0x80 ≤ b && b ≤ 0xBF

/-- The second bytes that may follow a lead byte: the narrower ranges shut out overlong forms,
surrogates and values past the last code point. -/
def isSecond (lead b : UInt8) : Bool :=
  if lead == 0xE0 then 0xA0 ≤ b && b ≤ 0xBF
  else if lead == 0xED then 0x80 ≤ b && b ≤ 0x9F
  else if lead == 0xF0 then 0x90 ≤ b && b ≤ 0xBF
  else if lead == 0xF4 then 0x80 ≤ b && b ≤ 0x8F
  else isContinuation b

/-- How many bytes follow a lead byte; none for a byte that cannot lead. -/
def following (lead : UInt8) : Nat :=
  if 0xC2 ≤ lead && lead ≤ 0xDF then 1
  else if 0xE0 ≤ lead && lead ≤ 0xEF then 2
  else if 0xF0 ≤ lead && lead ≤ 0xF4 then 3
  else 0

/-- The low six bits of a continuation byte. -/
def payloadBits (b : UInt8) : Nat := b.toNat % 64

/-- The character that starts with `lead` and goes on in `rest`, and how many bytes of `rest`
belong to it or to the malformed part. -/
def front (lead : UInt8) (rest : List UInt8) : Option Char × Nat :=
  if lead < 0x80 then (some (Char.ofNat lead.toNat), 0)
  else
    match following lead, rest with
    | 1, b₁ :: _ =>
      if isSecond lead b₁ then (some (Char.ofNat (lead.toNat % 32 * 64 + payloadBits b₁)), 1)
      else (none, 0)
    | 2, b₁ :: rest₁ =>
      if isSecond lead b₁ then
        match rest₁ with
        | b₂ :: _ =>
          if isContinuation b₂ then
            (some (Char.ofNat ((lead.toNat % 16 * 64 + payloadBits b₁) * 64 + payloadBits b₂)), 2)
          else (none, 1)
        | [] => (none, 1)
      else (none, 0)
    | 3, b₁ :: rest₁ =>
      if isSecond lead b₁ then
        match rest₁ with
        | b₂ :: rest₂ =>
          if isContinuation b₂ then
            match rest₂ with
            | b₃ :: _ =>
              if isContinuation b₃ then
                (some (Char.ofNat (((lead.toNat % 8 * 64 + payloadBits b₁) * 64
                  + payloadBits b₂) * 64 + payloadBits b₃)), 3)
              else (none, 2)
            | [] => (none, 2)
          else (none, 1)
        | [] => (none, 1)
      else (none, 0)
    | _, _ => (none, 0)

/-- Reads `bytes` after skipping `skip` of them, which belong to a part already read. -/
def lossyFrom : Nat → List UInt8 → List Char
  | _, [] => []
  | skip + 1, _ :: rest => lossyFrom skip rest
  | 0, lead :: rest =>
    let (c, n) := front lead rest
    c.getD replacement :: lossyFrom n rest

/-- The text a byte string encodes, if it is well-formed UTF-8. -/
def decode? (bytes : ByteArray) : Option String :=
  String.fromUTF8? bytes

/-- The text a byte string encodes, with one replacement character for each malformed part. -/
def lossy (bytes : ByteArray) : String :=
  match decode? bytes with
  | some s => s
  | none => String.ofList (lossyFrom 0 bytes.data.toList)

end Text
end ObjectMachine
