import GameOfThreads.Screen
import GameOfThreads.Machine.Numeral
import GameOfThreads.Machine.StringLoops

/-! printf with its conversions, and itoa. Every loop runs for a number of rounds, so that a call
that does not end gives nothing. -/
namespace GameOfThreads
open Machine

/-- The digits of itoa. -/
def lookup : List UInt8 := text "0123456789ABCDEFGHIJKLMNOPQRSTUVWXYZ"

/-- One round of the digit loop: the lowest place of the value goes to the end of the string. -/
def digitRound (radix : ℕ) (s : ℕ × ℕ × (ℕ → UInt8)) :
    (ℕ × ℕ × (ℕ → UInt8)) ⊕ (ℕ × (ℕ → UInt8)) :=
  if s.1 > 0 then
    .inl (s.1/radix,s.2.1+1,Function.update s.2.2 s.2.1 (lookup.getD (s.1 % radix) 0))
  else .inr s.2

/-- strrev on the string at `s` of a buffer. -/
def strrev (fuel : ℕ) (buffer : ℕ → UInt8) (s : ℕ) : Option (ℕ → UInt8) :=
  (loop (lengthRound buffer 0 s) fuel 0).bind fun len =>
    loop (swapRound s) fuel (0,(len : ℤ)-1,buffer)

/-- itoa into a buffer, from `buf` on. -/
def itoa (fuel value : ℕ) (buffer : ℕ → UInt8) (buf radix : ℕ) : Option (ℕ → UInt8) :=
  if value = 0 then
    some (Function.update (Function.update buffer buf 48) (buf+1) 0)
  else
    (loop (digitRound radix) fuel (value,buf,buffer)).bind fun s =>
      strrev fuel (Function.update s.2 s.1 0) buf

/-- The characters that puts hands to putc. -/
def putsText (fuel : ℕ) (buffer : ℕ → UInt8) (s : ℕ) : Option (List UInt8) :=
  loop (passRound buffer 0 s) fuel (0,[])

/-- One round of the loop that fills up with zeros below the digits. -/
def zeroRound (s : ℕ × (ℕ → UInt8)) : (ℕ × (ℕ → UInt8)) ⊕ (ℕ → UInt8) :=
  if s.1 < 8 then .inl (s.1+1,Function.update s.2 s.1 48) else .inr s.2

section
variable (fuel : ℕ) (convBuf : ℕ → UInt8)

/-- `%x`, and `%#x` with the digits at offset 8. -/
def hexText (alternate : Bool) (v : UInt32) : Option (List UInt8) :=
  if alternate then
    (itoa fuel v.toNat convBuf 8 16).bind fun buffer =>
      (loop (lengthRound buffer 0 8) fuel 0).bind fun startingIndex =>
        (loop zeroRound fuel (startingIndex,buffer)).bind fun buffer =>
          putsText fuel buffer startingIndex
  else (itoa fuel v.toNat convBuf 0 16).bind fun buffer => putsText fuel buffer 0

/-- `%u` -/
def unsignedText (v : UInt32) : Option (List UInt8) :=
  (itoa fuel v.toNat convBuf 0 10).bind fun buffer => putsText fuel buffer 0

/-- `%d` -/
def signedText (v : UInt32) : Option (List UInt8) :=
  let value := i32 v.toNat
  if value < 0 then
    (itoa fuel (u32 (-value)) (Function.update convBuf 0 45) 1 10).bind fun buffer =>
      putsText fuel buffer 0
  else (itoa fuel (u32 value) convBuf 0 10).bind fun buffer => putsText fuel buffer 0

end

/-- What a call of printf finds: the memory from the format on, the arguments behind it, the
strings that pointers among them point to, and what is left in the local buffers. -/
structure FormatCall where
  format : ℕ → UInt8
  args : ℕ → UInt32
  strings : UInt32 → List UInt8
  convBuf : ℕ → UInt8

def percent : UInt8 := 37
def sharp : UInt8 := 35

/-- The conversions that take an argument. -/
inductive Conversion
  | hex
  | unsigned
  | signed
  | char
  | string

def conversion (c : UInt8) : Option Conversion :=
  if c = 120 then some .hex
  else if c = 117 then some .unsigned
  else if c = 100 then some .signed
  else if c = 99 then some .char
  else if c = 115 then some .string
  else none

/-- What a conversion prints of its argument. -/
def FormatCall.convert (call : FormatCall) (fuel : ℕ) (alternate : Bool) (v : UInt32) :
    Conversion → Option (List UInt8)
  | .hex => hexText fuel call.convBuf alternate v
  | .unsigned => unsignedText fuel call.convBuf v
  | .signed => signedText fuel call.convBuf v
  | .char => some [v.toUInt8]
  | .string => some ((call.strings v).takeWhile (· ≠ 0))

/-- printf on its way: where it is in the format, how many arguments it has taken, whether it is
behind a `%` and has seen a `#` there, and what it has printed. `examined` only records the
positions of the format that it has looked at. -/
structure Formatting where
  buf : ℕ
  esp : ℕ
  alternate : Option Bool
  out : List UInt8
  examined : List ℕ

/-- What printf returns and prints, and the positions of the format that it looked at. -/
structure Formatted where
  value : ℤ
  out : List UInt8
  examined : List ℕ

/-- From one look at the format to the next: the outer loop, or the switch behind a `%`. The
inner loops give nothing when their rounds have run out. -/
def FormatCall.round (call : FormatCall) (fuel : ℕ) (s : Formatting) :
    Formatting ⊕ Option Formatted :=
  let c := call.format s.buf
  let next := { s with buf := s.buf+1, examined := s.buf :: s.examined }
  match s.alternate with
  | none =>
    if c = 0 then .inr (some ⟨i32 s.buf,s.out,next.examined⟩)
    else if c = percent then .inl { next with alternate := some false }
    else .inl { next with out := s.out ++ [c] }
  | some alternate =>
    if c = percent then .inl { next with alternate := none, out := s.out ++ [percent] }
    else if c = sharp then .inl { next with alternate := some true }
    else
      match conversion c with
      | none => .inl { next with alternate := none }
      | some conv =>
        match call.convert fuel alternate (call.args s.esp) conv with
        | none => .inr none
        | some chars =>
          .inl { next with alternate := none, esp := s.esp+1, out := s.out ++ chars }

/-- printf. -/
def FormatCall.printf (call : FormatCall) (fuel : ℕ) : Option Formatted :=
  (loop (call.round fuel) fuel ⟨0,0,none,[],[]⟩).join

/-- What the call does to the kernel: its characters go to putc one after the other. -/
def printfOn (call : FormatCall) (fuel : ℕ) (k : Kernel) : Option (ℤ × Kernel) :=
  (call.printf fuel).map fun r => (r.value,printf r.out k)

end GameOfThreads
