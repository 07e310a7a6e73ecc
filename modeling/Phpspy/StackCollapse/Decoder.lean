import Mathlib.Data.List.AList
import Mathlib.Data.List.Sort
import Phpspy.Support.Records

/-!
# The stack collapsing script

`stackcollapse-phpspy.pl` reads what the fout handler wrote, line by line, and
counts how often each stack occurs.  Chunks of a trace are collected in a hash
of hashes until the last one arrives.  Perl's hashes are association lists
here.
-/

namespace Phpspy
namespace StackCollapse

open ByteText

/-- The class `\s` on byte strings. -/
def isSpace (b : UInt8) : Bool :=
  b == 32 || (9 ≤ b && b ≤ 13)

/-- Perl's `Encode` for `utf-8`, between bytes and code points.  All that is
known about it is that ASCII stands for itself. -/
structure Encode where
  decode : Bytes → List ℕ
  encode : List ℕ → Bytes
  decode_ascii : ∀ bs : Bytes, (∀ b ∈ bs, b < 128) →
    decode bs = bs.map UInt8.toNat
  encode_ascii : ∀ bs : Bytes, (∀ b ∈ bs, b < 128) →
    encode (bs.map UInt8.toNat) = bs

/-- `[\x01-\x08\x0B-\x0C\x0E-\x1F\x7F-\x84\x86-\x9F]` -/
def breaksXml (c : ℕ) : Bool :=
  (0x01 ≤ c && c ≤ 0x08) || (0x0B ≤ c && c ≤ 0x0C) ||
    (0x0E ≤ c && c ≤ 0x1F) || (0x7F ≤ c && c ≤ 0x84) ||
    (0x86 ≤ c && c ≤ 0x9F)

/-- Strip the characters that break XML. -/
def sanitize (enc : Encode) (func : Bytes) : Bytes :=
  enc.encode ((enc.decode func).map fun c => if breaksXml c then 0x3F else c)

/-! ## Patterns -/

/-- A blank and then something else than whitespace. -/
def blankThenWord : Bytes → Bool
  | blank :: b :: _ => blank == 32 && !isSpace b
  | _ => false

/-- `/^(?:#|\d+) \S/` -/
def isRecordLine (line : Bytes) : Bool :=
  (line.head? == some 35 && blankThenWord line.tail) ||
    (!(line.takeWhile isDigit).isEmpty &&
      blankThenWord (line.dropWhile isDigit))

/-- `(\d+)(.)` at the start of a text.  If nothing follows the digits, the
last of them is what the dot matches. -/
def matchIndexAndMark (text : Bytes) : Option (Bytes × UInt8) :=
  let ds := text.takeWhile isDigit
  match text.dropWhile isDigit with
  | mark :: _ => if ds.isEmpty then none else some (ds, mark)
  | [] =>
      if ds.length < 2 then none
      else ds.getLast?.map fun mark => (ds.dropLast, mark)

/-- `m{^# trace_id = (\d+)\.(\d+)(.)}` -/
def matchTraceId (line : Bytes) : Option (Bytes × Bytes × UInt8) :=
  if (lit "# trace_id = ").isPrefixOf line then
    let text := line.drop (lit "# trace_id = ").length
    let id := text.takeWhile isDigit
    match text.dropWhile isDigit with
    | dot :: rest =>
        if dot = 46 ∧ id ≠ [] then
          (matchIndexAndMark rest).map fun (k, mark) => (id, k, mark)
        else none
    | [] => none
  else none

/-- `(split ' ', $line)[0,1]` -/
def splitFields (line : Bytes) : Bytes × Bytes :=
  let text := line.dropWhile isSpace
  (text.takeWhile fun b => !isSpace b,
    ((text.dropWhile fun b => !isSpace b).dropWhile isSpace).takeWhile
      fun b => !isSpace b)

/-! ## The main loop -/

structure State where
  stackCounts : AList fun _ : Bytes => ℕ
  stack : List Bytes
  chunks : AList fun _ : Bytes => AList fun _ : Bytes => List Bytes

def State.empty : State :=
  { stackCounts := ∅
    stack := []
    chunks := ∅ }

/-- `join(';', reverse @frames)` -/
def joinStack (frames : List Bytes) : Bytes :=
  (lit ";").intercalate frames.reverse

/-- `$stacks{join(';', reverse @frames)} += 1 if @frames` -/
def flush (stackCounts : AList fun _ : Bytes => ℕ) (frames : List Bytes) :
    AList fun _ : Bytes => ℕ :=
  if frames.isEmpty then stackCounts
  else
    stackCounts.insert (joinStack frames)
      ((stackCounts.lookup (joinStack frames)).getD 0 + 1)

/-- `sort { $a <=> $b } keys` -/
def sortKeys (keys : List Bytes) : List Bytes :=
  keys.insertionSort fun a b => numVal a ≤ numVal b

/-- The branch of the main loop for a line with a trace id. -/
def stepChunk (st : State) (id k : Bytes) (mark : UInt8) : State :=
  let parts := ((st.chunks.lookup id).getD ∅).insert k st.stack
  if mark = 33 then
    let keys := sortKeys parts.keys
    { stackCounts :=
        if keys.length == numVal k + 1 &&
          keys.getLast?.map numVal == some (numVal k)
        then flush st.stackCounts
          (keys.flatMap fun key => (parts.lookup key).getD [])
        else st.stackCounts
      stack := []
      chunks := st.chunks.erase id }
  else
    { st with
      stack := []
      chunks := st.chunks.insert id parts }

def step (enc : Encode) (st : State) (line : Bytes) : State :=
  if line = [] then
    { st with
      stackCounts := flush st.stackCounts st.stack
      stack := [] }
  else if isRecordLine line then
    match matchTraceId line with
    | some (id, k, mark) => stepChunk st id k mark
    | none =>
        if (splitFields line).1 = lit "#" then st
        else
          { st with stack := st.stack ++ [sanitize enc (splitFields line).2] }
  else st

def collapse (enc : Encode) (input : Bytes) : AList fun _ : Bytes => ℕ :=
  let st := (bodies 10 input).foldl (step enc) State.empty
  flush st.stackCounts st.stack

end StackCollapse
end Phpspy
