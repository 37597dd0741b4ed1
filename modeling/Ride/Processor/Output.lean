import Mathlib.Data.List.GetD
import Mathlib.Data.List.TakeWhile
import Ride.CodeLib.JsonStrings
import Ride.Processor.Safety

/-!
# The lines of the output

`processor_print_hash` puts a line together in a buffer of `OUTPUT_MAX_SIZE` bytes
and writes it.  `processorPrintHash` is the function with its buffer, where a store
outside of the buffer is a fault, and `Printed.write_eq` says that the line fits.

The line is meant to be a JSON object, but the path is copied as it is.
`output_decodes_iff` is the result: a reader that splits the output into lines and
parses each of them gets back what was hashed exactly when the paths are UTF-8
without quotes, backslashes and control characters.  `forged_record` is a path that
adds a line about another file.
-/

namespace Ride

open CodeLib

/-- The bytes of an ASCII text. -/
def ascii (text : String) : Bytes := text.toList.map Char.toUInt8

/-! ## The function -/

def OUTPUT_MAX_SIZE : Nat := 512

def HASH_LEN : Nat := 32

/-- A number as `%d` prints it. -/
def digits (n : Nat) : Bytes := (Nat.toDigits 10 n).map Char.toUInt8

def decimal : Int → Bytes
  | .ofNat n => digits n
  | .negSucc n => 45 :: digits (n + 1)

/-- The value of `hexdigits[i]`. -/
def hexdigit (i : UInt8) : UInt8 := (ascii "0123456789abcdef").getD i.toNat 0

/-- The two digits of a byte. -/
def hexByte (b : UInt8) : Bytes := [hexdigit (b >>> 4), hexdigit (b &&& 0x0f)]

def hex (hash : Bytes) : Bytes := hash.flatMap hexByte

/-- A store to the buffer.  Outside of it, it is a fault. -/
def store (mem : Bytes) (i : Nat) (b : UInt8) : Option Bytes :=
  if i < mem.length then some (mem.set i b) else none

/-- `snprintf` at an offset, with the text that the format makes.  It stores no
more than `size` bytes with the terminator, and returns the whole length. -/
def snprintf (mem : Bytes) (off size : Nat) (text : Bytes) :
    Option (Bytes × Nat) :=
  let out := text.take (size - 1) ++ [0]
  if off + out.length ≤ mem.length then
    some (mem.take off ++ out ++ mem.drop (off + out.length), text.length)
  else none

/-- One round of the loop over the hash. -/
def putHex (state : Bytes × Nat) (b : UInt8) : Option (Bytes × Nat) := do
  let (debug, mlen) := state
  let debug ← store debug mlen (hexdigit (b >>> 4))
  let debug ← store debug (mlen + 1) (hexdigit (b &&& 0x0f))
  return (debug, mlen + 2)

/-- What the first format makes. -/
def lineHead (id : Int32) (reqId : UInt32) (file : Bytes) : Bytes :=
  ascii "\x7b \"processor\": " ++ decimal id.toInt ++ ascii ", \"req_id\": " ++
    decimal reqId.toInt32.toInt ++ ascii ", \"file\": \"" ++ file ++
    ascii "\", \"hash\": \""

/-- `processor_print_hash`: the bytes that are given to `write`.  `debug` is the
buffer on the stack as it is found. -/
def processorPrintHash (debug : Bytes) (id : Int32) (reqId : UInt32)
    (data hash : Bytes) : Option Bytes := do
  let (debug, mlen) ← snprintf debug 0 OUTPUT_MAX_SIZE
    (lineHead id reqId (cString data))
  let (debug, mlen) ← hash.foldlM putHex (debug, mlen)
  let (debug, rest) ← snprintf debug mlen 5 (ascii "\" \x7d\n")
  if mlen + rest ≤ debug.length then return debug.take (mlen + rest) else none

/-! ## The line fits -/

/-- The buffer begins with `text`. -/
structure Holds (mem text : Bytes) : Prop where
  text_prefix : text <+: mem
  length : mem.length = OUTPUT_MAX_SIZE

theorem Holds.snprintf {mem pre : Bytes} (h : Holds mem pre) {text : Bytes}
    {size : Nat} (hsize : text.length < size)
    (hfits : pre.length + text.length < OUTPUT_MAX_SIZE) :
    ∃ mem', Ride.snprintf mem pre.length size text =
      some (mem', text.length) ∧ Holds mem' (pre ++ text) := by
  obtain ⟨⟨rest, rfl⟩, hlen⟩ := h
  have hall : text.take (size - 1) = text := List.take_of_length_le (by omega)
  have hroom : pre.length + (text ++ [0]).length ≤ (pre ++ rest).length := by
    rw [hlen, List.length_append, List.length_singleton]
    omega
  have hstate : Ride.snprintf (pre ++ rest) pre.length size text =
      some (pre ++ (text ++ [0]) ++ (pre ++ rest).drop
        (pre.length + (text ++ [0]).length), text.length) := by
    simp only [Ride.snprintf, hall, if_pos hroom, List.take_left]
  refine ⟨_, hstate, ⟨?_, ?_⟩⟩
  · rw [← List.append_assoc pre, List.append_assoc]
    exact List.prefix_append _ _
  · rw [← hlen]
    simp only [List.length_append, List.length_drop, List.length_singleton]
      at hroom ⊢
    omega

theorem Holds.store {mem pre : Bytes} (h : Holds mem pre) (b : UInt8)
    (hfits : pre.length < OUTPUT_MAX_SIZE) :
    ∃ mem', Ride.store mem pre.length b = some mem' ∧
      Holds mem' (pre ++ [b]) := by
  obtain ⟨⟨rest, rfl⟩, hlen⟩ := h
  refine ⟨_, if_pos (by rw [hlen]; exact hfits), ⟨?_, ?_⟩⟩
  · rw [List.set_append_right _ _ (Nat.le_refl _), Nat.sub_self]
    cases rest with
    | nil =>
      rw [List.append_nil] at hlen
      omega
    | cons c rest =>
      rw [List.set_cons_zero]
      exact ⟨rest, (List.append_cons pre b rest).symm⟩
  · rw [List.length_set]
    exact hlen

theorem length_hex (hash : Bytes) : (hex hash).length = 2 * hash.length := by
  induction hash with
  | nil => rfl
  | cons b rest ih =>
    rw [hex, List.flatMap_cons, List.length_append, ← hex, ih]
    simp only [hexByte, List.length_cons, List.length_nil]
    omega

theorem Holds.putHex {mem pre : Bytes} (h : Holds mem pre) (b : UInt8)
    (hfits : pre.length + 2 ≤ OUTPUT_MAX_SIZE) :
    ∃ mem', Ride.putHex (mem, pre.length) b = some (mem', pre.length + 2) ∧
      Holds mem' (pre ++ hexByte b) := by
  obtain ⟨mem₁, hfirst, h₁⟩ := h.store (hexdigit (b >>> 4)) (by omega)
  obtain ⟨mem₂, hsecond, h₂⟩ := h₁.store (hexdigit (b &&& 0x0f)) (by
    rw [List.length_append, List.length_singleton]
    omega)
  rw [List.length_append, List.length_singleton] at hsecond
  refine ⟨mem₂, ?_, ?_⟩
  · simp [Ride.putHex, hfirst, hsecond]
  · rw [List.append_assoc] at h₂
    exact h₂

/-- The loop stores the digits of the hash. -/
theorem Holds.putHash {mem pre : Bytes} (h : Holds mem pre) (hash : Bytes)
    (hfits : pre.length + 2 * hash.length ≤ OUTPUT_MAX_SIZE) :
    ∃ mem', hash.foldlM Ride.putHex (mem, pre.length) =
      some (mem', (pre ++ hex hash).length) ∧ Holds mem' (pre ++ hex hash) := by
  induction hash generalizing mem pre with
  | nil => exact ⟨mem, by simp [hex], by simpa [hex] using h⟩
  | cons b rest ih =>
    rw [List.length_cons] at hfits
    obtain ⟨mem₁, hput, h₁⟩ := h.putHex b (by omega)
    have hlen : (pre ++ hexByte b).length = pre.length + 2 :=
      List.length_append
    obtain ⟨mem₂, hrest, h₂⟩ := ih h₁ (by omega)
    rw [List.append_assoc] at hrest h₂
    refine ⟨mem₂, ?_, h₂⟩
    rw [List.foldlM_cons, hput]
    exact hlen ▸ hrest

theorem length_digits_le {n : Nat} (h : n < 10 ^ 10) :
    (digits n).length ≤ 10 := by
  rw [digits, List.length_map]
  exact (Nat.length_toDigits_le_iff (by decide) (by decide)).mpr h

theorem length_decimal_le (i : Int32) : (decimal i.toInt).length ≤ 11 := by
  have hlow := i.le_toInt
  have hhigh := i.toInt_lt
  cases hi : i.toInt with
  | ofNat n =>
    rw [hi, Int.ofNat_eq_natCast] at hhigh
    have hlen := length_digits_le (n := n) (by omega)
    exact Nat.le_succ_of_le hlen
  | negSucc n =>
    rw [hi] at hlow
    have hlen := length_digits_le (n := n + 1) (by omega)
    exact Nat.succ_le_succ hlen

/-- The memory of `debug`. -/
def Buffer : Type := { mem : Bytes // mem.length = OUTPUT_MAX_SIZE }

/-- What one call of `processor_print_hash` is given: a path as the BPF program
stores it, and a digest. -/
structure Printed where
  processor : Int32
  reqId : UInt32
  path : Bytes
  hash : Bytes
  path_le : path.length ≤ 127
  path_nul : 0 ∉ path
  hash_length : hash.length = HASH_LEN

namespace Printed

/-- The line up to the path. -/
def head (p : Printed) : Bytes :=
  ascii "\x7b \"processor\": " ++ decimal p.processor.toInt ++
    ascii ", \"req_id\": " ++ decimal p.reqId.toInt32.toInt ++
    ascii ", \"file\": \""

/-- The line behind the path. -/
def tail (p : Printed) : Bytes :=
  ascii "\", \"hash\": \"" ++ (hex p.hash ++ ascii "\" \x7d")

def line (p : Printed) : Bytes := p.head ++ (p.path ++ p.tail)

/-- The bytes that the call writes, with what it finds in its buffer. -/
def write (p : Printed) (debug : Buffer) : Option Bytes :=
  processorPrintHash debug.1 p.processor p.reqId p.path p.hash

theorem length_head_le (p : Printed) : p.head.length ≤ 61 := by
  have hid := length_decimal_le p.processor
  have hreq := length_decimal_le p.reqId.toInt32
  have hone : (ascii "\x7b \"processor\": ").length = 15 := by decide +kernel
  have htwo : (ascii ", \"req_id\": ").length = 12 := by decide +kernel
  have hthree : (ascii ", \"file\": \"").length = 11 := by decide +kernel
  simp only [head, List.length_append, hone, htwo, hthree]
  omega

theorem length_tail (p : Printed) : p.tail.length = 79 := by
  have hone : (ascii "\", \"hash\": \"").length = 12 := by decide +kernel
  have htwo : (ascii "\" \x7d").length = 3 := by decide +kernel
  simp only [tail, List.length_append, length_hex, p.hash_length, hone, htwo,
    HASH_LEN]

theorem length_line_lt (p : Printed) : p.line.length + 2 ≤ OUTPUT_MAX_SIZE := by
  have hhead := p.length_head_le
  have htail := p.length_tail
  have hpath := p.path_le
  simp only [line, List.length_append, OUTPUT_MAX_SIZE]
  omega

theorem lineHead_eq (p : Printed) :
    lineHead p.processor p.reqId (cString p.path) =
      p.head ++ (p.path ++ ascii "\", \"hash\": \"") := by
  have hpath : cString p.path = p.path := by
    refine List.takeWhile_eq_self_iff.mpr fun b hb => decide_eq_true ?_
    rintro rfl
    exact p.path_nul hb
  rw [hpath, lineHead, head]
  simp only [List.append_assoc]

theorem line_append_newline (p : Printed) :
    lineHead p.processor p.reqId (cString p.path) ++ hex p.hash ++
      ascii "\" \x7d\n" = p.line ++ [10] := by
  have hend : ascii "\" \x7d\n" = ascii "\" \x7d" ++ [10] := by decide +kernel
  rw [lineHead_eq, hend, line, tail]
  simp only [List.append_assoc]

/-- No store leaves the buffer, and the line is written with a newline. -/
theorem write_eq (p : Printed) (debug : Buffer) :
    p.write debug = some (p.line ++ [10]) := by
  have hline := congrArg List.length p.line_append_newline
  have hfits := p.length_line_lt
  have hlast : (ascii "\" \x7d\n").length = 4 := by decide +kernel
  simp only [List.length_append, List.length_singleton, length_hex, hlast]
    at hline
  have hstart : Holds debug.1 [] := ⟨List.nil_prefix, debug.2⟩
  obtain ⟨mem₁, h₁, hold₁⟩ : ∃ mem', snprintf debug.1 0 OUTPUT_MAX_SIZE
      (lineHead p.processor p.reqId (cString p.path)) = some (mem', _) ∧
      Holds mem' (lineHead p.processor p.reqId (cString p.path)) :=
    hstart.snprintf (by omega) (by rw [List.length_nil]; omega)
  obtain ⟨mem₂, h₂, hold₂⟩ := hold₁.putHash p.hash (by omega)
  obtain ⟨mem₃, h₃, hold₃⟩ : ∃ mem', snprintf mem₂ _ 5 (ascii "\" \x7d\n") =
      some (mem', _) ∧ Holds mem' _ :=
    hold₂.snprintf (by omega) (by
      rw [List.length_append, length_hex]
      omega)
  unfold write processorPrintHash
  simp only [h₁, h₂, h₃, Option.bind_eq_bind, Option.bind_some]
  obtain ⟨rest, hmem⟩ := hold₃.text_prefix
  rw [if_pos (by rw [hold₃.length, List.length_append, length_hex]; omega)]
  rw [← p.line_append_newline, ← hmem, ← List.length_append, List.take_left]
  rfl

end Printed

/-! ## The reader -/

/-- The path and the hash of a JSON object, if it has both. -/
def record? (value : Json.Value) : Option (Bytes × Bytes) :=
  match value.get? (ascii "file"), value.get? (ascii "hash") with
  | some (.string file), some (.string hash) => some (file, hash)
  | _, _ => none

/-- What a reader makes of a line. -/
def readRecord (line : Bytes) : Option (Bytes × Bytes) :=
  (Json.parse line).bind record?

/-- The lines of a text.  A newline ends a line. -/
def lines : Bytes → List Bytes
  | [] => []
  | b :: rest =>
    if b = 10 then [] :: lines rest
    else
      match lines rest with
      | [] => []
      | first :: more => (b :: first) :: more

/-- The output of several calls. -/
def output (ps : List Printed) : Bytes := ps.flatMap fun p => p.line ++ [10]

/-- The path is UTF-8, and it has no quotes, backslashes and control
characters. -/
def CleanPath (path : Bytes) : Prop := (∀ b ∈ path, Json.Plain b) ∧ Utf8 path

def Printed.Clean (p : Printed) : Prop := CleanPath p.path

/-! ## The tokens of a line -/

theorem ascii_processor : ascii "processor" =
    [112, 114, 111, 99, 101, 115, 115, 111, 114] := by decide +kernel

theorem ascii_reqId : ascii "req_id" = [114, 101, 113, 95, 105, 100] := by
  decide +kernel

theorem ascii_file : ascii "file" = [102, 105, 108, 101] := by decide +kernel

theorem ascii_hash : ascii "hash" = [104, 97, 115, 104] := by decide +kernel

open Json

theorem run_processor :
    Lexer.run ⟨.blank, []⟩ (ascii "\x7b \"processor\": ") =
      some ⟨.blank, [.beginObject, .string (ascii "processor"),
        .nameSeparator]⟩ := by
  have htext : ascii "\x7b \"processor\": " = [123, 32, 34, 112, 114, 111, 99,
      101, 115, 115, 111, 114, 34, 58, 32] := by decide +kernel
  rw [htext, ascii_processor]
  rfl

theorem run_reqId {part : NumPart} (hpart : part = .zero ∨ part = .int)
    (text : Bytes) (tokens : List Token) :
    Lexer.run ⟨.number part text, tokens⟩ (ascii ", \"req_id\": ") =
      some ⟨.blank, tokens ++ [.number text] ++ [.valueSeparator] ++
        [.string (ascii "req_id")] ++ [.nameSeparator]⟩ := by
  have htext : ascii ", \"req_id\": " = [44, 32, 34, 114, 101, 113, 95, 105, 100,
      34, 58, 32] := by decide +kernel
  rw [htext, ascii_reqId]
  rcases hpart with rfl | rfl <;> rfl

theorem run_file {part : NumPart} (hpart : part = .zero ∨ part = .int)
    (text : Bytes) (tokens : List Token) :
    Lexer.run ⟨.number part text, tokens⟩ (ascii ", \"file\": \"") =
      some ⟨.string [] false, tokens ++ [.number text] ++ [.valueSeparator] ++
        [.string (ascii "file")] ++ [.nameSeparator]⟩ := by
  have htext : ascii ", \"file\": \"" = [44, 32, 34, 102, 105, 108, 101, 34, 58,
      32, 34] := by decide +kernel
  rw [htext, ascii_file]
  rcases hpart with rfl | rfl <;> rfl

/-- The digits of a number that is not zero: the first one is not zero. -/
theorem digits_of_pos {n : Nat} (hn : 0 < n) : ∃ b rest,
    digits n = b :: rest ∧ IsDigit b ∧ b ≠ 48 ∧ ∀ c ∈ rest, IsDigit c := by
  have hchar : ∀ d < 10, IsDigit (Nat.digitChar d).toUInt8 := by decide
  have hpos : ∀ d < 10, 0 < d → (Nat.digitChar d).toUInt8 ≠ 48 := by decide
  induction n using Nat.strongRecOn with
  | ind n ih =>
    rw [digits, Nat.toDigits_eq_if (by decide)]
    split_ifs with hlt
    · exact ⟨_, [], rfl, hchar n hlt, hpos n hlt hn, by simp⟩
    · obtain ⟨b, rest, heq, hb, hne, hrest⟩ := ih (n / 10) (by omega) (by omega)
      rw [digits] at heq
      refine ⟨b, rest ++ [(Nat.digitChar (n % 10)).toUInt8], ?_, hb, hne, ?_⟩
      · rw [List.map_append, heq]
        rfl
      · rw [List.forall_mem_append]
        exact ⟨hrest, by simpa using hchar (n % 10) (Nat.mod_lt n (by decide))⟩

/-- A digit that is not zero begins a number, also behind a minus sign. -/
theorem run_digits_of_pos {n : Nat} (hn : 0 < n) (tokens : List Token) :
    Lexer.run ⟨.blank, tokens⟩ (digits n) =
        some ⟨.number .int (digits n), tokens⟩ ∧
      Lexer.run ⟨.number .minus [45], tokens⟩ (digits n) =
        some ⟨.number .int (45 :: digits n), tokens⟩ := by
  obtain ⟨b, rest, heq, hb, hne, hrest⟩ := digits_of_pos hn
  have hminus : Lexer.step ⟨.number .minus [45], tokens⟩ b =
      some ⟨.number .int [45, b], tokens⟩ := by
    simp only [Lexer.step, NumPart.step, if_neg hne, if_pos hb]
    rfl
  rw [heq, Lexer.run_cons, Lexer.run_cons, Lexer.step_digit hb hne, hminus]
  exact ⟨Lexer.run_digits hrest [b] tokens,
    Lexer.run_digits hrest [45, b] tokens⟩

theorem run_decimal (i : Int) (tokens : List Token) :
    ∃ part, (part = .zero ∨ part = .int) ∧
      Lexer.run ⟨.blank, tokens⟩ (decimal i) =
        some ⟨.number part (decimal i), tokens⟩ := by
  cases i with
  | ofNat n =>
    by_cases hn : n = 0
    · subst hn
      exact ⟨.zero, Or.inl rfl, rfl⟩
    · exact ⟨.int, Or.inr rfl, (run_digits_of_pos (by omega) tokens).1⟩
  | negSucc n =>
    refine ⟨.int, Or.inr rfl, ?_⟩
    exact (run_digits_of_pos (Nat.succ_pos n) tokens).2

namespace Printed

/-- The tokens up to the path. -/
def headTokens (p : Printed) : List Token :=
  [.beginObject, .string (ascii "processor"), .nameSeparator,
    .number (decimal p.processor.toInt), .valueSeparator,
    .string (ascii "req_id"), .nameSeparator,
    .number (decimal p.reqId.toInt32.toInt), .valueSeparator,
    .string (ascii "file"), .nameSeparator]

/-- The tokens from the path on, where the path is read as `file`. -/
def tailTokens (p : Printed) (file : Bytes) : List Token :=
  [.string file, .valueSeparator, .string (ascii "hash"), .nameSeparator,
    .string (hex p.hash), .endObject]

theorem run_head (p : Printed) :
    Lexer.run ⟨.blank, []⟩ p.head =
      some ⟨.string [] false, p.headTokens⟩ := by
  obtain ⟨part₁, hpart₁, hid⟩ := run_decimal p.processor.toInt
    [.beginObject, .string (ascii "processor"), .nameSeparator]
  rw [head, List.append_assoc, List.append_assoc, List.append_assoc,
    Lexer.run_append run_processor, Lexer.run_append hid,
    Lexer.run_append (run_reqId hpart₁ _ _)]
  obtain ⟨part₂, hpart₂, hreq⟩ := run_decimal p.reqId.toInt32.toInt _
  rw [Lexer.run_append hreq, run_file hpart₂]
  rfl

end Printed

/-- The digits that the loop stores. -/
theorem mem_of_hex {hash : Bytes} {b : UInt8} (hb : b ∈ hex hash) :
    b ∈ ascii "0123456789abcdef" := by
  have hlen : (ascii "0123456789abcdef").length = 16 := by decide +kernel
  have hdigit : ∀ i : UInt8, i.toNat < 16 →
      hexdigit i ∈ ascii "0123456789abcdef" := by
    intro i hi
    have hlt : i.toNat < (ascii "0123456789abcdef").length := by omega
    rw [hexdigit, List.getD_eq_getElem _ _ hlt]
    exact List.getElem_mem hlt
  obtain ⟨c, -, hc⟩ := List.mem_flatMap.mp hb
  rw [hexByte, List.mem_cons, List.mem_singleton] at hc
  rcases hc with rfl | rfl
  · refine hdigit _ ?_
    have hlt := c.toNat_lt
    rw [UInt8.toNat_shiftRight, Nat.shiftRight_eq_div_pow]
    exact Nat.div_lt_of_lt_mul hlt
  · refine hdigit _ ?_
    rw [UInt8.toNat_and]
    exact Nat.lt_succ_of_le Nat.and_le_right

theorem plain_hex (hash : Bytes) : ∀ b ∈ hex hash, Plain b := by
  have hplain : ∀ b ∈ ascii "0123456789abcdef", Plain b := by decide +kernel
  exact fun b hb => hplain b (mem_of_hex hb)

theorem ascii_hashName : ascii "\", \"hash\": \"" =
    [34, 44, 32, 34, 104, 97, 115, 104, 34, 58, 32, 34] := by decide +kernel

namespace Printed

/-- Behind the path, the string ends and the hash follows. -/
theorem run_tail (p : Printed) (raw : Bytes) (tokens : List Token) :
    Lexer.run ⟨.string raw false, tokens⟩ p.tail =
      (unescape raw none).map fun file =>
        ⟨.blank, tokens ++ p.tailTokens file⟩ := by
  have hend : ascii "\" \x7d" = [34, 32, 125] := by decide +kernel
  have hclose : ∀ tokens, Lexer.run ⟨.blank, tokens⟩ [32, 125] =
      some ⟨.blank, tokens ++ [.endObject]⟩ := fun _ => rfl
  have hhash := unescape_plain (plain_hex p.hash)
  rw [tail, ascii_hashName, List.cons_append, Lexer.run_quote]
  cases unescape raw none with
  | none => rfl
  | some file =>
    have hname : Lexer.run ⟨.blank, tokens ++ [.string file]⟩
        [44, 32, 34, 104, 97, 115, 104, 34, 58, 32, 34] =
        some ⟨.string [] false, tokens ++ [.string file] ++ [.valueSeparator] ++
          [.string (ascii "hash")] ++ [.nameSeparator]⟩ := by
      rw [ascii_hash]
      rfl
    rw [Option.map_some, Option.bind_some, Lexer.run_append hname,
      Lexer.run_append (Lexer.run_plain (plain_hex p.hash) [] _), hend,
      List.nil_append, Lexer.run_quote, hhash, Option.bind_some, hclose,
      tailTokens]
    simp only [List.append_assoc, List.cons_append, List.nil_append]

/-- Where a backslash makes the quote a part of the string, the next quote ends
it, and what follows is no token. -/
theorem run_tail_escaped (p : Printed) (raw : Bytes) (tokens : List Token) :
    Lexer.run ⟨.string raw true, tokens⟩ p.tail = none := by
  have hquote : Lexer.run ⟨.string raw true, tokens⟩ [34, 44, 32] =
      some ⟨.string (raw ++ [34] ++ [44] ++ [32]) false, tokens⟩ := rfl
  have htail : p.tail = [34, 44, 32] ++ 34 :: ([104, 97, 115, 104, 34, 58, 32,
      34] ++ (hex p.hash ++ ascii "\" \x7d")) := by
    rw [tail, ascii_hashName]
    rfl
  rw [htail, Lexer.run_append hquote, Lexer.run_quote]
  cases unescape (raw ++ [34] ++ [44] ++ [32]) none with
  | none => rfl
  | some file => rfl

end Printed

/-! ## The bytes around the path -/

/-- An ASCII character that is no newline and no backslash. -/
def Inert (b : UInt8) : Prop := b < 128 ∧ b ≠ 10 ∧ b ≠ 92

instance : DecidablePred Inert := fun _ => inferInstanceAs (Decidable (_ ∧ _))

theorem inert_decimal (i : Int) : ∀ b ∈ decimal i, Inert b := by
  have hdigit : ∀ b : UInt8, IsDigit b → Inert b := by
    intro b hb
    refine ⟨UInt8.lt_of_le_of_lt hb.2 (by decide), ?_, ?_⟩ <;>
    · rintro rfl
      exact absurd hb (by decide)
  have hdigits : ∀ n, ∀ b ∈ digits n, Inert b := by
    intro n
    by_cases hn : n = 0
    · have hzero : digits 0 = [48] := rfl
      rw [hn, hzero, List.forall_mem_singleton]
      decide
    · obtain ⟨b, rest, heq, hb, -, hrest⟩ := digits_of_pos (Nat.pos_of_ne_zero hn)
      rw [heq, List.forall_mem_cons]
      exact ⟨hdigit b hb, fun c hc => hdigit c (hrest c hc)⟩
  cases i with
  | ofNat n => exact hdigits n
  | negSucc n => exact List.forall_mem_cons.mpr ⟨by decide, hdigits (n + 1)⟩

namespace Printed

theorem inert_head (p : Printed) : ∀ b ∈ p.head, Inert b := by
  have hone : ∀ b ∈ ascii "\x7b \"processor\": ", Inert b := by decide +kernel
  have htwo : ∀ b ∈ ascii ", \"req_id\": ", Inert b := by decide +kernel
  have hthree : ∀ b ∈ ascii ", \"file\": \"", Inert b := by decide +kernel
  simp only [head, List.forall_mem_append]
  exact ⟨⟨⟨⟨hone, inert_decimal _⟩, htwo⟩, inert_decimal _⟩, hthree⟩

theorem inert_tail (p : Printed) : ∀ b ∈ p.tail, Inert b := by
  have hone : ∀ b ∈ ascii "\", \"hash\": \"", Inert b := by decide +kernel
  have htwo : ∀ b ∈ ascii "0123456789abcdef", Inert b := by decide +kernel
  have hthree : ∀ b ∈ ascii "\" \x7d", Inert b := by decide +kernel
  simp only [tail, List.forall_mem_append]
  exact ⟨hone, fun b hb => htwo b (mem_of_hex hb), hthree⟩

theorem utf8_line (p : Printed) : Utf8 p.line ↔ Utf8 p.path :=
  utf8_between (fun b hb => (p.inert_head b hb).1)
    (fun b hb => (p.inert_tail b hb).1) p.path

theorem count_line {b : UInt8} (hb : ¬ Inert b) (p : Printed) :
    p.line.count b = p.path.count b := by
  have hhead : p.head.count b = 0 :=
    List.count_eq_zero.mpr fun hmem => hb (p.inert_head b hmem)
  have htail : p.tail.count b = 0 :=
    List.count_eq_zero.mpr fun hmem => hb (p.inert_tail b hmem)
  rw [line, List.count_append, List.count_append, hhead, htail]
  omega

/-! ## When a line decodes -/

/-- A reader gets the path and the hash from the line. -/
def Decodes (p : Printed) : Prop :=
  readRecord p.line = some (p.path, hex p.hash)

theorem record_tokens (p : Printed) (file : Bytes) :
    (parseTokens (p.headTokens ++ p.tailTokens file)).bind record? =
      some (file, hex p.hash) := by
  unfold record? headTokens tailTokens
  rw [ascii_processor, ascii_reqId, ascii_file, ascii_hash]
  rfl

/-- Without a quote in the path, the line has the tokens that it was made for, if
it has any. -/
theorem lex_line {p : Printed} (h : 34 ∉ p.path) {tokens : List Token}
    (hlex : lex p.line = some tokens) : ∃ file,
      unescape p.path none = some file ∧
        tokens = p.headTokens ++ p.tailTokens file := by
  obtain ⟨escape, hpath⟩ := Lexer.run_string h [] false p.headTokens
  rw [List.nil_append] at hpath
  rw [lex, line, Lexer.run_append p.run_head, Lexer.run_append hpath] at hlex
  cases escape with
  | true =>
    rw [run_tail_escaped] at hlex
    exact absurd hlex (by simp)
  | false =>
    rw [run_tail] at hlex
    cases hfile : unescape p.path none with
    | none =>
      rw [hfile] at hlex
      exact absurd hlex (by simp)
    | some file =>
      rw [hfile] at hlex
      exact ⟨file, rfl, (Option.some.inj hlex).symm⟩

theorem lex_clean {p : Printed} (h : ∀ b ∈ p.path, Plain b) :
    lex p.line = some (p.headTokens ++ p.tailTokens p.path) := by
  have hpath := Lexer.run_plain h [] p.headTokens
  rw [List.nil_append] at hpath
  rw [lex, line, Lexer.run_append p.run_head, Lexer.run_append hpath, run_tail,
    unescape_plain h]
  rfl

theorem Clean.decodes {p : Printed} (h : p.Clean) : p.Decodes := by
  unfold Decodes readRecord parse
  rw [if_pos (p.utf8_line.mpr h.2), lex_clean h.1]
  exact p.record_tokens p.path

/-- What the reader gets has only the special characters that the path has
backslashes. -/
theorem Decodes.specials_le {p : Printed} (h : p.Decodes) :
    specials p.path ≤ p.path.count 92 := by
  obtain ⟨v, hparse, hrecord⟩ := Option.bind_eq_some_iff.mp h
  have hget : v.get? (ascii "file") = some (.string p.path) := by
    unfold record? at hrecord
    split at hrecord
    · rename_i file hash hfile _
      obtain ⟨rfl, -⟩ := Prod.mk.inj (Option.some.inj hrecord)
      exact hfile
    · exact absurd hrecord (by simp)
  rw [← p.count_line (by decide)]
  exact specials_le_of_parse hparse hget

theorem Decodes.clean {p : Printed} (h : p.Decodes) : p.Clean := by
  have hspecial := eq_backslash_of_specials_le h.specials_le
  have hquote : 34 ∉ p.path := by
    intro hmem
    exact absurd (hspecial 34 hmem) (by decide)
  have hread : readRecord p.line = some (p.path, hex p.hash) := h
  unfold readRecord parse at hread
  split_ifs at hread with hutf8
  · obtain ⟨v, hparse, hrecord⟩ := Option.bind_eq_some_iff.mp hread
    obtain ⟨tokens, hlex, htokens⟩ := Option.bind_eq_some_iff.mp hparse
    obtain ⟨file, hfile, rfl⟩ := lex_line hquote hlex
    have hrecord' := p.record_tokens file
    rw [htokens, Option.bind_some, hrecord] at hrecord'
    obtain ⟨rfl, -⟩ := Prod.mk.inj (Option.some.inj hrecord')
    -- an escape would have made the string shorter than the path
    have hback : 92 ∉ p.path := by
      intro hmem
      have hlt := (length_unescape hfile).2 hmem
      rw [flush, List.length_nil] at hlt
      exact absurd hlt (Nat.lt_irrefl _)
    refine ⟨fun b hb => (hspecial b hb).resolve_right ?_, p.utf8_line.mp hutf8⟩
    rintro rfl
    exact hback hb
  · exact absurd hread (by simp)

theorem newline_mem_line (p : Printed) : 10 ∈ p.line ↔ 10 ∈ p.path := by
  rw [← List.count_pos_iff, ← List.count_pos_iff, p.count_line (by decide)]

theorem Clean.newline {p : Printed} (h : p.Clean) : 10 ∉ p.line := by
  rw [newline_mem_line]
  intro hmem
  exact absurd (h.1 10 hmem) (by decide)

end Printed

/-! ## The whole output -/

theorem length_lines (text : Bytes) : (lines text).length = text.count 10 := by
  induction text with
  | nil => rfl
  | cons b rest ih =>
    rw [lines]
    split_ifs with hb
    · rw [hb, List.length_cons, ih, List.count_cons_self]
    · rw [List.count_cons_of_ne hb, ← ih]
      split <;> simp_all

theorem lines_append {line : Bytes} (h : 10 ∉ line) (rest : Bytes) :
    lines (line ++ 10 :: rest) = line :: lines rest := by
  induction line with
  | nil => rfl
  | cons b line ih =>
    rw [List.mem_cons, not_or] at h
    rw [List.cons_append, lines, if_neg (Ne.symm h.1), ih h.2]

theorem lines_output {ps : List Printed} (h : ∀ p ∈ ps, 10 ∉ p.line) :
    lines (output ps) = ps.map Printed.line := by
  induction ps with
  | nil => rfl
  | cons p rest ih =>
    obtain ⟨hp, hrest⟩ := List.forall_mem_cons.mp h
    rw [output, List.flatMap_cons, ← output, List.append_assoc,
      List.singleton_append, lines_append hp, ih hrest, List.map_cons]

/-- The output has a newline for each call, and those of the paths. -/
theorem count_output (ps : List Printed) :
    (output ps).count 10 = ps.length + (ps.map fun p => p.path.count 10).sum := by
  induction ps with
  | nil => rfl
  | cons p rest ih =>
    have hline := p.count_line (b := 10) (by decide)
    rw [output, List.flatMap_cons, ← output, List.count_append, ih,
      List.count_append, hline, List.length_cons, List.map_cons, List.sum_cons]
    simp only [List.count_singleton_self]
    omega

/-- The reader gets the paths and the hashes back. -/
def Recovered (ps : List Printed) : Prop :=
  (lines (output ps)).map readRecord =
    ps.map fun p => some (p.path, hex p.hash)

theorem recovered_iff (ps : List Printed) :
    Recovered ps ↔ ∀ p ∈ ps, p.Clean := by
  constructor
  · intro h
    have hlen := congrArg List.length h
    rw [List.length_map, List.length_map, length_lines, count_output] at hlen
    have hsum : (ps.map fun p => p.path.count 10).sum = 0 := by omega
    have hline : ∀ p ∈ ps, 10 ∉ p.line := by
      intro p hp
      rw [Printed.newline_mem_line, ← List.count_eq_zero]
      exact List.sum_eq_zero_iff_forall_eq_nat.mp hsum _
        (List.mem_map_of_mem hp)
    have heq : ps.map (fun p => readRecord p.line) =
        ps.map fun p => some (p.path, hex p.hash) := by
      have h : (lines (output ps)).map readRecord = _ := h
      rw [lines_output hline, List.map_map, Function.comp_def] at h
      exact h
    intro p hp
    exact Printed.Decodes.clean (List.map_inj_left.mp heq p hp)
  · intro h
    have hline : ∀ p ∈ ps, 10 ∉ p.line := fun p hp => (h p hp).newline
    unfold Recovered
    rw [lines_output hline, List.map_map, Function.comp_def]
    exact List.map_congr_left fun p hp => (h p hp).decodes

/-- Every line is written as a whole and fits in the buffer.  It is one line and
decodes to the path and the hash exactly when the path is clean.  Splitting the
output of any sequence of calls into lines and parsing each of them recovers the
paths and the hashes exactly when all paths are clean. -/
theorem output_decodes_iff (p : Printed) (debug : Buffer)
    (ps : List Printed) :
    (p.write debug = some (p.line ++ [10]) ∧
        (p.line ++ [10]).length ≤ OUTPUT_MAX_SIZE) ∧
      (10 ∉ p.line ∧ p.Decodes ↔ p.Clean) ∧
      (Recovered ps ↔ ∀ q ∈ ps, q.Clean) := by
  refine ⟨⟨p.write_eq debug, ?_⟩, ?_, recovered_iff ps⟩
  · have hfits := p.length_line_lt
    rw [List.length_append, List.length_singleton]
    omega
  · exact ⟨fun h => h.2.clean, fun h => ⟨h.newline, h.decodes⟩⟩

/-- A path that closes its line, and has another one about the file `/b`. -/
def forged : Printed where
  processor := 0
  reqId := 0
  path := ascii "\"\x7d\n\x7b\"file\":\"/b\",\"hash\":\"" ++
    hex (List.replicate HASH_LEN 0) ++ ascii "\"\x7d\n\x7b\"x\":\""
  hash := List.replicate HASH_LEN 171
  path_le := by decide +kernel
  path_nul := by decide +kernel
  hash_length := rfl

/-- The reader sees a record about `/b`, and none about the file that was
hashed. -/
theorem forged_record :
    (lines (output [forged])).map readRecord =
        [none, some (ascii "/b", hex (List.replicate HASH_LEN 0)), none] ∧
      ¬ Recovered [forged] := by
  have hread : (lines (output [forged])).map readRecord =
      [none, some (ascii "/b", hex (List.replicate HASH_LEN 0)), none] := by
    decide +kernel
  refine ⟨hread, fun h => ?_⟩
  exact absurd (congrArg List.length (hread.symm.trans h)) (by decide)

/-! ## The lines of a run -/

/-- A line of a run whose file and hash have the lengths that they should
have. -/
structure Record.Printable (r : Record) : Prop where
  file_le : r.file.length ≤ 127
  file_nul : 0 ∉ r.file
  hash_length : r.hash.length = HASH_LEN

/-- The call that has written the line. -/
def Record.printed (r : Record) (h : r.Printable) : Printed where
  processor := .ofNat r.processor
  reqId := .ofNat r.reqId
  path := r.file
  hash := r.hash
  path_le := h.file_le
  path_nul := h.file_nul
  hash_length := h.hash_length

theorem zero_notMem_cString (buf : Bytes) : 0 ∉ cString buf := by
  intro hmem
  have hne := List.mem_takeWhile_imp hmem
  exact absurd hne (by decide)

/-- The string in a buffer with a terminator is shorter than the buffer. -/
theorem length_cString_lt {buf : Bytes} (h : 0 ∈ buf) :
    (cString buf).length < buf.length := by
  have hpre : cString buf <+: buf := List.takeWhile_prefix _
  refine Nat.lt_of_le_of_ne hpre.length_le fun hlen => ?_
  have hall := hpre.eq_of_length hlen
  rw [← hall] at h
  exact zero_notMem_cString buf h

/-- Every line of every run is such a line, where the events are terminated as the
BPF program leaves them and a digest has `HASH_LEN` bytes. -/
theorem Sys.printable_records {B : Blake3} {n : Nat} [NeZero n]
    (boot : Sys.Boot n) (sched : List (SysStep n))
    (hhash : ∀ content, (B.hash content).length = HASH_LEN)
    (hnul : ∀ event ∈ (Machine.run Sys.step (Sys.processorRun B boot)
      sched).dequeued, 0 ∈ event.path) :
    ∀ r ∈ (Machine.run Sys.step (Sys.processorRun B boot) sched).records,
      r.Printable := by
  intro r hr
  obtain ⟨k, event, file, -, hevent, hfile, -, hdigest⟩ :=
    (Sys.good_run boot sched).output.records r hr
  have hmem := hnul event (List.mem_of_getElem? hevent)
  have hlt := length_cString_lt hmem
  rw [event.path_length, MAX_FILENAME_LEN] at hlt
  refine ⟨?_, ?_, ?_⟩
  · rw [hfile]
    omega
  · rw [hfile]
    exact zero_notMem_cString event.path
  · rw [hdigest]
    exact hhash file.content

/-- In every such run, the output tells what was hashed exactly when all the paths
are clean. -/
theorem Sys.run_recovered_iff {B : Blake3} {n : Nat} [NeZero n]
    (boot : Sys.Boot n) (sched : List (SysStep n))
    (hhash : ∀ content, (B.hash content).length = HASH_LEN)
    (hnul : ∀ event ∈ (Machine.run Sys.step (Sys.processorRun B boot)
      sched).dequeued, 0 ∈ event.path) :
    Recovered ((Machine.run Sys.step (Sys.processorRun B boot)
        sched).records.pmap Record.printed
        (Sys.printable_records boot sched hhash hnul)) ↔
      ∀ r ∈ (Machine.run Sys.step (Sys.processorRun B boot) sched).records,
        CleanPath r.file := by
  rw [recovered_iff]
  constructor
  · intro h r hr
    exact h _ (List.mem_pmap.mpr ⟨r, hr, rfl⟩)
  · intro h p hp
    obtain ⟨r, hr, rfl⟩ := List.mem_pmap.mp hp
    exact h r hr

end Ride
