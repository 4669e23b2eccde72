import Decompiler.Text.Quoted

/-!
# String literals

The C string literal for the bytes of a string. The zero bytes at its end are implied; a string
without one is marked.
-/

namespace Decompiler.Text

def decodeBytes (bytes : List UInt8) : List Char :=
  match String.fromUTF8? ⟨bytes.toArray⟩ with
  | some s => s.toList
  | none => bytes.map fun b => Char.ofNat b.toNat

def escape (c : Char) : List Char :=
  if c == '\\' || c == '"' then ['\\', c]
  else
    match c.toNat with
    | 0x00 => ['\\', '0']
    | 0x08 => ['\\', 'b']
    | 0x0c => ['\\', 'f']
    | 0x0a => ['\\', 'n']
    | 0x0d => ['\\', 'r']
    | 0x09 => ['\\', 't']
    | 0x0b => ['\\', 'v']
    | n => if n < 0x20 || n == 0xff || n == 0x7f then '\\' :: 'x' :: hexDigits 2 n else [c]

def stringLiteral (bytes : List UInt8) : String :=
  let cs := decodeBytes bytes
  let body := ((cs.reverse.dropWhile (·.toNat == 0)).reverse).flatMap escape
  let mark := if cs.getLast? == some (Char.ofNat 0) then "" else " /* not null-terminated */"
  "\"" ++ String.ofList body ++ "\"" ++ mark

end Decompiler.Text
