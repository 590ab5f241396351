import EseReader.Text.Utf16

/-!
# `EseReader/Text/Codepage.lean` — text in a codepage

A column names the codepage its text is stored in; 0 stands for a default that the caller may
choose. Under the Unicode codepage writers disagree: some store UTF-16, some UTF-8. **A zero byte
with a nonzero byte somewhere behind it** is taken as the sign of UTF-16, since UTF-8 text has zero
bytes at its end only.

Values are padded with zeros, so characters NUL at the end of a text are never part of it.
-/

set_option autoImplicit false

namespace EseReader

/-- The codepages in which one character does not take two bytes. -/
inductive NarrowPage where
  | windows1252
  | ascii
  | latin1
  | utf8
  deriving DecidableEq, Repr

namespace NarrowPage

def ofNumber? (number : UInt32) : Option NarrowPage :=
  if number = 1252 then some windows1252
  else if number = 20127 then some ascii
  else if number = 28591 then some latin1
  else if number = 65001 then some utf8
  else none

/-- Windows-1252 between 0x80 and 0x9f; its five free places hold the replacement character. -/
def windows1252Table : List Char :=
  ['\u20ac', '\ufffd', '\u201a', '\u0192', '\u201e', '\u2026', '\u2020', '\u2021',
   '\u02c6', '\u2030', '\u0160', '\u2039', '\u0152', '\ufffd', '\u017d', '\ufffd',
   '\ufffd', '\u2018', '\u2019', '\u201c', '\u201d', '\u2022', '\u2013', '\u2014',
   '\u02dc', '\u2122', '\u0161', '\u203a', '\u0153', '\ufffd', '\u017e', '\u0178']

/-- The character of a byte in Windows-1252: that of Latin-1 but for the table. -/
def windows1252Char (b : UInt8) : Char :=
  if 0x80 ≤ b ∧ b < 0xa0 then windows1252Table.getD (b.toNat - 0x80) replacement
  else Char.ofNat b.toNat

/-- Bytes above 0x7f are not ASCII. -/
def asciiChar (b : UInt8) : Char := if b < 0x80 then Char.ofNat b.toNat else replacement

def decode (page : NarrowPage) (data : Bytes) : List Char :=
  match page with
  | windows1252 => data.map windows1252Char
  | ascii => data.map asciiChar
  | latin1 => data.map fun b => Char.ofNat b.toNat
  | utf8 => Utf8.decode data

end NarrowPage

/-- Reads text in a codepage given by number, which may not be the Unicode one. -/
def decodeNarrow (data : Bytes) (codepage : UInt32) : Except Error (List Char) :=
  match NarrowPage.ofNumber? codepage with
  | some page => .ok (page.decode data)
  | none => .error (.unsupported (.codepage codepage))

/-- A text without the characters NUL at its end. -/
def trimNuls (text : List Char) : List Char := (text.reverse.dropWhile (· == '\x00')).reverse

/-- How the codepage numbers of columns are read. -/
structure Codepages where
  /-- What a column means that names no codepage. -/
  standard : UInt32 := 1252
  deriving DecidableEq, Repr

namespace Codepages

/-- The codepage a column means by `codepage`. -/
def resolve (pages : Codepages) (codepage : UInt32) : UInt32 :=
  if codepage = 0 then pages.standard else codepage

def isUnicode (codepage : UInt32) : Bool := codepage == 1200

end Codepages

/-- Whether a nonzero byte stands anywhere behind a zero byte. -/
def looksWide (data : Bytes) : Bool := (data.dropWhile (· != 0)).any (· != 0)

/-- The text of a column value. -/
def toText (data : Bytes) (codepage : UInt32) (pages : Codepages) : Except Error String :=
  let codepage := pages.resolve codepage
  let text :=
    if Codepages.isUnicode codepage then
      .ok (if looksWide data then Utf16.decode data else Utf8.decode data)
    else decodeNarrow data codepage
  text.map (String.ofList ∘ trimNuls)

end EseReader
