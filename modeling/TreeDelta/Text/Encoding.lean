import TreeDelta.Text.CharName
import TreeDelta.Text.CodePage
import TreeDelta.Text.Utf7
/-!
# Encodings

How text becomes bytes, and what is done with signs that the encoding does not have.
`Encoding.encode` gives no bytes at all if such a sign is to be refused. `utf8?` is the plain
case. Halves of pairs have no bytes in any encoding, but there are treatments that let them
through where an encoding has a pattern of bytes for them.
-/

namespace TreeDelta.Text

inductive ByteOrder where
  | little | big
deriving DecidableEq, Repr

/-- The bytes of a number, `count` of them. -/
def ByteOrder.bytes (order : ByteOrder) (count n : Nat) : List UInt8 :=
  let bytes := (List.range count).map fun i => (n / Nat.pow 256 i).toUInt8
  match order with
  | little => bytes
  | big => bytes.reverse

/-- An encoding. Where the order of bytes is left open, a mark in front tells it. -/
inductive Encoding where
  | ascii
  | latin1
  | page (p : CodePage)
  | utf7
  | utf8 (marked : Bool)
  | utf16 (order : Option ByteOrder)
  | utf32 (order : Option ByteOrder)
deriving DecidableEq, Repr

namespace Encoding

/-- All encodings with the spellings of their names, in lower case with underscores. The first
one is the proper name. -/
def named : List (Encoding × List String) :=
  [(ascii, ["ascii", "646", "ansi_x3.4_1968", "ansi_x3_4_1968", "ansi_x3.4_1986", "cp367",
      "csascii", "ibm367", "iso646_us", "iso_646.irv_1991", "iso_ir_6", "us", "us_ascii"]),
   (latin1, ["latin_1", "8859", "cp819", "csisolatin1", "ibm819", "iso8859", "iso8859_1",
      "iso_8859_1", "iso_8859_1_1987", "iso_ir_100", "l1", "latin", "latin1"]),
   (utf7, ["utf_7", "u7", "unicode_1_1_utf_7", "utf7"]),
   (utf8 false, ["utf_8", "u8", "utf", "utf8", "utf8_ucs2", "utf8_ucs4", "cp65001", "locale"]),
   (utf8 true, ["utf_8_sig"]),
   (utf16 none, ["utf_16", "u16", "utf16"]),
   (utf16 (some .big), ["utf_16_be", "unicodebigunmarked", "utf_16be"]),
   (utf16 (some .little), ["utf_16_le", "unicodelittleunmarked", "utf_16le"]),
   (utf32 none, ["utf_32", "u32", "utf32"]),
   (utf32 (some .big), ["utf_32_be", "utf_32be"]),
   (utf32 (some .little), ["utf_32_le", "utf_32le"])] ++
    CodePage.all.map fun p => (page p, p.spellings)

/-- A letter, digit or dot of a name in lower case; anything else is set aside. -/
def nameChar? : Sign → Option Char
  | .char c => if c.isAlphanum || c = '.' then some c.toLower else none
  | .half _ => none

/-- A name in lower case, with one underscore for whatever stands between its parts.
`pending` says that an underscore is due. -/
def plainName (pending : Bool) : Text → List Char
  | [] => []
  | s :: rest =>
    match nameChar? s with
    | some c => (if pending then ['_', c] else [c]) ++ plainName false rest
    | none => plainName true rest

/-- The encoding of a name. In all spellings but the proper one, dots may stand for
underscores. -/
def ofName? (name : Text) : Option Encoding :=
  let plain := plainName false (name.dropWhile (nameChar? · |>.isNone))
  let undotted := String.ofList (plain.map fun c => if c = '.' then '_' else c)
  let known := named.find? fun (_, spellings) =>
    String.ofList plain ∈ spellings || undotted ∈ spellings.tail
  known.map (·.1)

/-- The bytes of a code of the basic plane in UTF-8. -/
def threeBytes (code : Nat) : List UInt8 :=
  [(0xe0 + code / 0x1000).toUInt8, (0x80 + code / 0x40 % 0x40).toUInt8,
    (0x80 + code % 0x40).toUInt8]

/-- The bytes of a sign, whether or not it is half of a pair, in an encoding of all code
points. -/
def bytesOfAny? (e : Encoding) (s : Sign) : Option (List UInt8) :=
  match e with
  | utf8 _ =>
    match s with
    | .char c => some (String.singleton c).toUTF8.toList
    | .half h => some (threeBytes (Sign.half h).code)
  | utf16 order => some ((units s).flatMap ((order.getD .little).bytes 2))
  | utf32 order => some ((order.getD .little).bytes 4 s.code)
  | _ => none

def bytesOf? (e : Encoding) (s : Sign) : Option (List UInt8) :=
  match e, s with
  | ascii, s => if s.code < 0x80 then some [s.code.toUInt8] else none
  | latin1, s => if s.code < 0x100 then some [s.code.toUInt8] else none
  | page p, s => (p.byteOf? s.code).map ([·])
  | e, .char c => e.bytesOfAny? c
  | _, .half _ => none

def isBytewise : Encoding → Bool
  | utf7 | utf16 _ | utf32 _ => false
  | _ => true

/-- The mark in front of all else. -/
def mark : Encoding → List UInt8
  | utf8 true => threeBytes 0xfeff
  | utf16 none => ByteOrder.little.bytes 2 0xfeff
  | utf32 none => ByteOrder.little.bytes 4 0xfeff
  | _ => []

end Encoding

/-- What is done with a sign that an encoding does not have. -/
inductive Treatment where
  | refuse | ignore | question | backslash | reference
  /-- The name of the character stands for it, or a backslash and the code if it has none. -/
  | byName
  /-- A half that stands for a stray byte becomes that byte. -/
  | byte
  /-- A half is encoded as if it were a character. -/
  | pass
deriving DecidableEq, Repr

namespace Treatment

def named : List (Treatment × List String) :=
  [(refuse, ["strict"]), (ignore, ["ignore"]), (question, ["replace"]),
   (backslash, ["backslashreplace"]), (byName, ["namereplace"]),
   (reference, ["xmlcharrefreplace"]),
   (byte, ["surrogateescape"]), (pass, ["surrogatepass"])]

def ofName? (name : Text) : Option Treatment :=
  (named.find? fun (_, names) => names.any fun known => name = known).map (·.1)

/-- The text that stands for the sign, if any may. -/
def standIn? (t : Treatment) (s : Sign) : Option (List Char) :=
  match t with
  | ignore => some []
  | question => some ['?']
  | backslash => some (codeEscape s.code)
  | byName =>
    match charName? s.code with
    | some name => some (("\\N\x7b" ++ name ++ "\x7d").toList)
    | none => some (codeEscape s.code)
  | reference => some (("&#" ++ toString s.code ++ ";").toList)
  | refuse | byte | pass => none

/-- The bytes that stand for the sign in an encoding, if any may. -/
def bytesFor? (t : Treatment) (e : Encoding) (s : Sign) : Option (List UInt8) :=
  match t, s with
  | byte, .half h =>
    if e.isBytewise && 0x480 ≤ h.val && h.val < 0x500 then some [(h.val - 0x400).toUInt8]
    else none
  | pass, .half h => e.bytesOfAny? (.half h)
  | t, s => do
    let signs ← t.standIn? s
    let bytes ← (ofChars signs).mapM e.bytesOf?
    some bytes.flatten

end Treatment

namespace Encoding

def encodeAll (e : Encoding) (t : Treatment) : Text → Option (List UInt8)
  | [] => some []
  | s :: rest => do
    let bytes ← (e.bytesOf? s).or (t.bytesFor? e s)
    some (bytes ++ (← encodeAll e t rest))

/-- The bytes of a text, if every sign has some or a stand-in. UTF-7 has all signs, but no
bytes for one of them alone. -/
def encode (e : Encoding) (t : Treatment) (text : Text) : Option (List UInt8) :=
  match e with
  | utf7 => some ((Utf7.encode text).map fun c => c.toNat.toUInt8)
  | e => (e.encodeAll t text).map (e.mark ++ ·)

end Encoding

/-- The bytes of a text in UTF-8, if it has no halves. -/
def utf8? (text : Text) : Option (List UInt8) := (Encoding.utf8 false).encode .refuse text

end TreeDelta.Text
