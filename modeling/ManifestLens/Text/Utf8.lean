import ManifestLens.Text.Quoting

/-!
# Decoding bytes

UTF-8 read byte by byte. Where the bytes are not UTF-8, the longest run that could have started a
character counts as one fault; a reader may refuse faults or put a replacement character in their
place. Beside it stand the wider encodings in which JSON may be sent.
-/

namespace ManifestLens.Text

namespace Utf8

/-- A character that has begun: its bits so far, the bytes still owed, and the range of the next. -/
structure Pending where
  bits : Nat
  owed : Nat
  low : Nat
  high : Nat
deriving DecidableEq, Repr

/-- What a byte at the start of a character says: a character of its own, a beginning, or a fault. -/
inductive Start where
  | whole (c : Char)
  | begun (pending : Pending)
  | fault

/-- Reads the first byte of a character. -/
def start (b : Nat) : Start :=
  if b < 0x80 then .whole (Char.ofNat b)
  else if b < 0xC2 then .fault
  else if b < 0xE0 then .begun ⟨b % 0x20, 1, 0x80, 0xBF⟩
  else if b = 0xE0 then .begun ⟨0, 2, 0xA0, 0xBF⟩
  else if b = 0xED then .begun ⟨b % 0x10, 2, 0x80, 0x9F⟩
  else if b < 0xF0 then .begun ⟨b % 0x10, 2, 0x80, 0xBF⟩
  else if b = 0xF0 then .begun ⟨0, 3, 0x90, 0xBF⟩
  else if b = 0xF4 then .begun ⟨4, 3, 0x80, 0x8F⟩
  else if b < 0xF4 then .begun ⟨b % 8, 3, 0x80, 0xBF⟩
  else .fault

/-- The characters of the remaining bytes after a character that may have begun; a fault is none. -/
def decodeFrom (pending : Option Pending) : List UInt8 → List (Option Char)
  | [] => if pending.isSome then [none] else []
  | byte :: rest =>
      let b := byte.toNat
      let fresh (before : List (Option Char)) : List (Option Char) :=
        match start b with
        | .whole c => before ++ some c :: decodeFrom none rest
        | .begun pending => before ++ decodeFrom (some pending) rest
        | .fault => before ++ none :: decodeFrom none rest
      match pending with
      | none => fresh []
      | some p =>
          if p.low ≤ b ∧ b ≤ p.high then
            let bits := p.bits * 0x40 + b % 0x40
            if p.owed = 1 then some (Char.ofNat bits) :: decodeFrom none rest
            else decodeFrom (some ⟨bits, p.owed - 1, 0x80, 0xBF⟩) rest
          else fresh [none]

/-- The text that bytes encode, with a replacement character for every fault. -/
def decodeReplacing (bytes : List UInt8) : List Char :=
  (decodeFrom none bytes).map (·.getD (Char.ofNat 0xFFFD))

/-- The text that bytes encode, if they are UTF-8 throughout. -/
def decode? (bytes : List UInt8) : Option (List Char) := (decodeFrom none bytes).mapM id

/-- Why bytes are not UTF-8. -/
inductive Reason where
  | startByte
  | continuation
  | endOfData
deriving DecidableEq, Repr

/-- A run of bytes that are not UTF-8. -/
structure Fault where
  position : Nat
  bytes : List UInt8
  reason : Reason
deriving DecidableEq, Repr

/-- The first fault in the bytes from a position on, after a character that may have begun with the
given bytes. -/
def faultFrom? (position : Nat) (begun : Option (Pending × List UInt8)) :
    List UInt8 → Option Fault
  | [] => begun.map fun (_, bytes) => ⟨position - bytes.length, bytes, .endOfData⟩
  | byte :: rest =>
      match begun with
      | none =>
          match start byte.toNat with
          | .whole _ => faultFrom? (position + 1) none rest
          | .begun pending => faultFrom? (position + 1) (some (pending, [byte])) rest
          | .fault => some ⟨position, [byte], .startByte⟩
      | some (p, bytes) =>
          if p.low ≤ byte.toNat ∧ byte.toNat ≤ p.high then
            if p.owed = 1 then faultFrom? (position + 1) none rest
            else
              faultFrom? (position + 1) (some (⟨0, p.owed - 1, 0x80, 0xBF⟩, bytes ++ [byte])) rest
          else some ⟨position - bytes.length, bytes, .continuation⟩

def Fault.text (fault : Fault) : String :=
  let reason := match fault.reason with
    | .startByte => "invalid start byte"
    | .continuation => "invalid continuation byte"
    | .endOfData => "unexpected end of data"
  let place := match fault.bytes with
    | [byte] =>
        "byte 0x" ++ String.ofList (hexText 2 byte.toNat) ++ " in position " ++
          toString fault.position
    | bytes =>
        "bytes in position " ++ toString fault.position ++ "-" ++
          toString (fault.position + bytes.length - 1)
  "'utf-8' codec can't decode " ++ place ++ ": " ++ reason

/-- The text that bytes encode, or the first fault in them. -/
def decode (bytes : List UInt8) : Except Fault (List Char) :=
  match faultFrom? 0 none bytes with
  | some fault => .error fault
  | none => .ok (decodeReplacing bytes)

/-- The bytes of a text. -/
def encode (text : List Char) : List UInt8 := (String.ofList text).toUTF8.toList

end Utf8

/-! ### Wider units -/

/-- The units of the given width that bytes hold, the most significant byte first if `big`. -/
def units? (width : Nat) (big : Bool) (bytes : List UInt8) : Option (List Nat) :=
  group bytes.length bytes
where
  /-- Takes one unit after another. -/
  group : Nat → List UInt8 → Option (List Nat)
    | _, [] => some []
    | 0, _ => none
    | fuel + 1, bytes =>
        let unit := bytes.take width
        if unit.length < width then none
        else
          let ordered := if big then unit else unit.reverse
          (group fuel (bytes.drop width)).map
            ((ordered.foldl (fun n b => n * 256 + b.toNat) 0) :: ·)

/-- The characters of units of 16 bits, in which two surrogates make one character. -/
def ofUnits16? : List Nat → Option (List Char)
  | [] => some []
  | high :: low :: rest =>
      if 0xD800 ≤ high ∧ high < 0xDC00 then
        if 0xDC00 ≤ low ∧ low < 0xE000 then
          (ofUnits16? rest).map
            (Char.ofNat (0x10000 + (high - 0xD800) * 0x400 + (low - 0xDC00)) :: ·)
        else none
      else if 0xDC00 ≤ high ∧ high < 0xE000 then none
      else (ofUnits16? (low :: rest)).map (Char.ofNat high :: ·)
  | [unit] => if 0xD800 ≤ unit ∧ unit < 0xE000 then none else some [Char.ofNat unit]

/-- The characters of units of 32 bits. -/
def ofUnits32? (units : List Nat) : Option (List Char) :=
  units.mapM fun n => if h : n.isValidChar then some (Char.ofNatAux n h) else none

/-- The text of a JSON document, whose encoding shows in a byte order mark or in the zeros among its
first bytes. -/
def decodeDocument? (bytes : List UInt8) : Option (List Char) :=
  let wide16 (big : Bool) (bytes : List UInt8) := (units? 2 big bytes).bind ofUnits16?
  let wide32 (big : Bool) (bytes : List UInt8) := (units? 4 big bytes).bind ofUnits32?
  match bytes with
  | 0x00 :: 0x00 :: 0xFE :: 0xFF :: rest => wide32 true rest
  | 0xFF :: 0xFE :: 0x00 :: 0x00 :: rest => wide32 false rest
  | 0xFE :: 0xFF :: rest => wide16 true rest
  | 0xFF :: 0xFE :: rest => wide16 false rest
  | 0xEF :: 0xBB :: 0xBF :: rest => Utf8.decode? rest
  | a :: b :: c :: d :: _ =>
      if a = 0 then if b = 0 then wide32 true bytes else wide16 true bytes
      else if b = 0 then if c = 0 ∧ d = 0 then wide32 false bytes else wide16 false bytes
      else Utf8.decode? bytes
  | [a, b] =>
      if a = 0 then wide16 true bytes
      else if b = 0 then wide16 false bytes
      else Utf8.decode? bytes
  | _ => Utf8.decode? bytes

end ManifestLens.Text
