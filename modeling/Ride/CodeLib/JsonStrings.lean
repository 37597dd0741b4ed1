import Ride.CodeLib.Json

/-!
# What the strings of a JSON text can be

A string that a text stands for has no more quotes, backslashes and control
characters than the text has backslashes, since each of them takes an escape.
This is `specials_le_of_parse`, by an invariant of the lexer and one of the parser.

`Lexer.run_append` reads a text that is put together from pieces piece by piece,
and the lemmas behind it are about the pieces: what is in a string, the quote that
ends it, and digits.
-/

namespace CodeLib.Json

/-! ## What an escape costs -/

/-- The quotes, backslashes and control characters. -/
def specials (text : List UInt8) : Nat := text.countP fun b => ¬ Plain b

theorem specials_append (a b : List UInt8) :
    specials (a ++ b) = specials a + specials b :=
  List.countP_append

theorem specials_cons (b : UInt8) (rest : List UInt8) :
    specials (b :: rest) = specials rest + if Plain b then 0 else 1 := by
  unfold specials
  rw [List.countP_cons]
  by_cases h : Plain b <;> simp [h]

theorem specials_eq_zero {text : List UInt8} :
    specials text = 0 ↔ ∀ b ∈ text, Plain b := by
  simp [specials, List.countP_eq_zero]

theorem count_le_specials (text : List UInt8) :
    text.count 92 ≤ specials text := by
  refine List.countP_mono_left fun b _ hb => decide_eq_true ?_
  rw [eq_of_beq hb]
  decide

/-- Where there are no more special characters than backslashes, all of them are
backslashes. -/
theorem eq_backslash_of_specials_le {text : List UInt8}
    (h : specials text ≤ text.count 92) : ∀ b ∈ text, Plain b ∨ b = 92 := by
  induction text with
  | nil => simp
  | cons b rest ih =>
    have hrest := count_le_specials rest
    rw [specials_cons] at h
    rw [List.forall_mem_cons]
    by_cases hb : b = 92
    · subst hb
      rw [if_neg (by decide), List.count_cons_self] at h
      exact ⟨Or.inr rfl, ih (by omega)⟩
    · rw [List.count_cons_of_ne hb] at h
      split_ifs at h with hplain
      · exact ⟨Or.inl hplain, ih (by omega)⟩
      · omega

theorem plain_of_high {b : UInt8} (hb : 128 ≤ b) : Plain b := by
  refine ⟨UInt8.le_trans (by decide) hb, ?_, ?_⟩ <;>
  · rintro rfl
    exact absurd hb (by decide)

/-- A character has at most one such byte. -/
theorem specials_encode (point : Nat) : specials (encode point) ≤ 1 := by
  rcases utf8EncodeChar_cases (Char.ofNat point) with hone | ⟨-, hhigh⟩
  · rw [encode, hone]
    exact List.countP_le_length
  · have hzero : specials (encode point) = 0 :=
      specials_eq_zero.mpr fun b hb => plain_of_high (hhigh b hb)
    omega

theorem length_encode_le (point : Nat) : (encode point).length ≤ 4 := by
  rw [encode, String.length_utf8EncodeChar]
  exact Char.utf8Size_le_four _

theorem specials_replacement : specials replacement = 0 := by decide

theorem specials_flush (high : Option Nat) : specials (flush high) = 0 := by
  cases high with
  | none => rfl
  | some _ => exact specials_replacement

theorem single_bounds (unit : Nat) :
    specials (single unit).1 ≤ 1 ∧
      (single unit).1.length + (flush (single unit).2).length ≤ 4 := by
  unfold single
  split_ifs
  · exact ⟨Nat.zero_le _, Nat.le_succ 3⟩
  · exact ⟨by decide, by decide⟩
  · exact ⟨specials_encode unit, length_encode_le unit⟩

theorem unitBytes_bounds (high : Option Nat) (unit : Nat) :
    specials (unitBytes high unit).1 ≤ 1 ∧
      (unitBytes high unit).1.length + (flush (unitBytes high unit).2).length ≤
        4 + (flush high).length := by
  obtain ⟨hspecials, hlength⟩ := single_bounds unit
  cases high with
  | none => exact ⟨hspecials, hlength⟩
  | some first =>
    have hflush : (flush (some first)).length = replacement.length := rfl
    simp only [unitBytes]
    split_ifs
    · have hone := specials_encode (pairPoint first unit)
      have hfour := length_encode_le (pairPoint first unit)
      have hnone : (flush none).length = 0 := rfl
      dsimp only
      omega
    · rw [specials_append, specials_replacement, List.length_append]
      refine ⟨by omega, ?_⟩
      dsimp only
      omega

/-- Each special character takes a backslash. -/
theorem specials_unescape {raw : List UInt8} {high : Option Nat}
    {text : List UInt8} (h : unescape raw high = some text) :
    specials text ≤ raw.count 92 := by
  fun_induction unescape raw high generalizing text with
  | case1 high =>
    obtain rfl := Option.some.inj h
    exact Nat.le_of_eq (specials_flush high)
  | case2 b tail high hb ih =>
    obtain ⟨rest, hrest, rfl⟩ := Option.map_eq_some_iff.mp h
    have hle := ih hrest
    rw [specials_append, specials_flush, specials_cons, if_pos hb,
      List.count_cons_of_ne hb.2.2]
    omega
  | case4 high h₁ h₂ h₃ h₄ rest unit hunit _ ih =>
    obtain ⟨rest', hrest, rfl⟩ := Option.map_eq_some_iff.mp h
    have hle := ih hrest
    have hone := (unitBytes_bounds high unit).1
    have htail : rest.count 92 ≤ (117 :: h₁ :: h₂ :: h₃ :: h₄ :: rest).count 92 :=
      List.Sublist.count_le 92 (List.sublist_append_right [117, h₁, h₂, h₃, h₄] rest)
    rw [specials_append, List.count_cons_self]
    omega
  | case7 high kind rest hkind byte hbyte _ ih =>
    obtain ⟨rest', hrest, rfl⟩ := Option.map_eq_some_iff.mp h
    have hle := ih hrest
    have htail : rest.count 92 ≤ (kind :: rest).count 92 :=
      List.count_le_count_cons
    rw [specials_append, specials_flush, specials_cons, List.count_cons_self]
    split_ifs <;> omega
  | case3 | case5 | case6 | case8 | case9 => exact absurd h (by simp)

/-- An escape is longer than what it stands for. -/
theorem length_unescape {raw : List UInt8} {high : Option Nat}
    {text : List UInt8} (h : unescape raw high = some text) :
    text.length ≤ raw.length + (flush high).length ∧
      (92 ∈ raw → text.length < raw.length + (flush high).length) := by
  fun_induction unescape raw high generalizing text with
  | case1 high =>
    obtain rfl := Option.some.inj h
    simp
  | case2 b tail high hb ih =>
    obtain ⟨rest, hrest, rfl⟩ := Option.map_eq_some_iff.mp h
    obtain ⟨hle, hlt⟩ := ih hrest
    rw [List.mem_cons, List.length_append, List.length_cons, List.length_cons]
    rw [flush, List.length_nil] at hle hlt
    refine ⟨by omega, fun hmem => ?_⟩
    have hlt := hlt (hmem.resolve_left hb.2.2.symm)
    omega
  | case4 high h₁ h₂ h₃ h₄ rest unit hunit _ ih =>
    obtain ⟨rest', hrest, rfl⟩ := Option.map_eq_some_iff.mp h
    have hle := (ih hrest).1
    have hfour := (unitBytes_bounds high unit).2
    simp only [List.length_append, List.length_cons]
    omega
  | case7 high kind rest hkind byte hbyte _ ih =>
    obtain ⟨rest', hrest, rfl⟩ := Option.map_eq_some_iff.mp h
    have hle := (ih hrest).1
    rw [flush, List.length_nil] at hle
    simp only [List.length_append, List.length_cons]
    omega
  | case3 | case5 | case6 | case8 | case9 => exact absurd h (by simp)

theorem unescape_plain {raw : List UInt8} (h : ∀ b ∈ raw, Plain b) :
    unescape raw none = some raw := by
  induction raw with
  | nil => rfl
  | cons b tail ih =>
    obtain ⟨hb, htail⟩ := List.forall_mem_cons.mp h
    rw [unescape.eq_def]
    simp only [if_pos hb, ih htail]
    rfl

/-! ## Reading in pieces -/

namespace Lexer

variable {l m : Lexer} {text : List UInt8}

theorem run_append (h : l.run text = some m) (rest : List UInt8) :
    l.run (text ++ rest) = m.run rest := by
  unfold run at h ⊢
  rw [List.foldlM_append, h]
  rfl

theorem run_cons (l : Lexer) (b : UInt8) (rest : List UInt8) :
    l.run (b :: rest) = (l.step b).bind fun m => m.run rest :=
  List.foldlM_cons

theorem run_quote (raw rest : List UInt8) (tokens : List Token) :
    run ⟨.string raw false, tokens⟩ (34 :: rest) =
      (unescape raw none).bind fun text =>
        run ⟨.blank, tokens ++ [.string text]⟩ rest := by
  rw [run_cons]
  cases htext : unescape raw none <;> simp [step, htext]

/-- Only a quote ends a string. -/
theorem run_string (h : 34 ∉ text) (raw : List UInt8) (escape : Bool)
    (tokens : List Token) : ∃ escape', run ⟨.string raw escape, tokens⟩ text =
      some ⟨.string (raw ++ text) escape', tokens⟩ := by
  induction text generalizing raw escape with
  | nil => exact ⟨escape, by rw [List.append_nil]; rfl⟩
  | cons b rest ih =>
    rw [List.mem_cons, not_or] at h
    rw [run_cons, List.append_cons]
    cases escape with
    | false =>
      obtain ⟨escape', hrun⟩ := ih h.2 (raw ++ [b]) (b = 92)
      refine ⟨escape', ?_⟩
      simp only [step, if_neg (Ne.symm h.1), Option.bind_some]
      exact hrun
    | true => exact ih h.2 (raw ++ [b]) false

theorem run_plain (h : ∀ b ∈ text, Plain b) (raw : List UInt8)
    (tokens : List Token) : run ⟨.string raw false, tokens⟩ text =
      some ⟨.string (raw ++ text) false, tokens⟩ := by
  induction text generalizing raw with
  | nil =>
    rw [List.append_nil]
    rfl
  | cons b rest ih =>
    obtain ⟨hb, hrest⟩ := List.forall_mem_cons.mp h
    rw [run_cons, List.append_cons]
    simp only [step, if_neg hb.2.1, decide_eq_false hb.2.2, Option.bind_some]
    exact ih hrest (raw ++ [b])

theorem step_digit {b : UInt8} (hb : IsDigit b) (hzero : b ≠ 48)
    (tokens : List Token) : step ⟨.blank, tokens⟩ b =
      some ⟨.number .int [b], tokens⟩ := by
  have hne : ∀ c : UInt8, ¬ IsDigit c → b ≠ c := by
    rintro c hc rfl
    exact hc hb
  have hblank : b ∉ ([32, 9, 10, 13] : List UInt8) := by
    simp only [List.mem_cons, List.not_mem_nil, or_false, not_or]
    exact ⟨hne 32 (by decide), hne 9 (by decide), hne 10 (by decide),
      hne 13 (by decide)⟩
  simp only [step, start, if_neg hblank, if_neg (hne 34 (by decide)),
    if_neg (hne 45 (by decide)), if_neg hzero, if_pos hb]

theorem run_digits (h : ∀ b ∈ text, IsDigit b) (read : List UInt8)
    (tokens : List Token) : run ⟨.number .int read, tokens⟩ text =
      some ⟨.number .int (read ++ text), tokens⟩ := by
  induction text generalizing read with
  | nil =>
    rw [List.append_nil]
    rfl
  | cons b rest ih =>
    obtain ⟨hb, hrest⟩ := List.forall_mem_cons.mp h
    rw [run_cons, List.append_cons]
    simp only [step, NumPart.step, if_pos hb, Option.bind_some]
    exact ih hrest (read ++ [b])

end Lexer

/-! ## The strings of a text -/

theorem mem_of_lookup {α β : Type*} [BEq α] [LawfulBEq α] {l : List (α × β)}
    {a : α} {b : β} (h : l.lookup a = some b) : (a, b) ∈ l := by
  obtain ⟨before, behind, rfl, -⟩ := List.lookup_eq_some_iff.mp h
  exact List.mem_append_right before List.mem_cons_self

theorem punctuation_ne_string {b : UInt8} {s : List UInt8} :
    punctuation? b ≠ some (.string s) :=
  fun h => absurd (mem_of_lookup h) (by simp)

theorem word_ne_string {text s : List UInt8} :
    word? text ≠ some (.string s) :=
  fun h => absurd (mem_of_lookup h) (by simp)

/-- No string has more than `k` special characters, and the one that is read has
no more than `k` backslashes. -/
def Lexer.Bounded (k : Nat) (l : Lexer) : Prop :=
  (∀ s, .string s ∈ l.tokens → specials s ≤ k) ∧
    ∀ raw escape, l.mode = .string raw escape → raw.count 92 ≤ k

namespace Lexer

variable {l m : Lexer} {k : Nat} {text : List UInt8} {tokens : List Token}

theorem Bounded.mono (h : l.Bounded k) {k' : Nat} (hle : k ≤ k') :
    l.Bounded k' :=
  ⟨fun s hs => Nat.le_trans (h.1 s hs) hle,
    fun raw e hm => Nat.le_trans (h.2 raw e hm) hle⟩

theorem bounded_append (h : ∀ s, .string s ∈ tokens → specials s ≤ k)
    {token : Token} (hnew : ∀ s, token = .string s → specials s ≤ k) :
    ∀ s, .string s ∈ tokens ++ [token] → specials s ≤ k := by
  intro s hs
  rcases List.mem_append.mp hs with hold | hlast
  · exact h s hold
  · exact hnew s (List.mem_singleton.mp hlast).symm

theorem bounded_finish (h : l.Bounded k) (hfin : l.finish = some tokens) :
    ∀ s, .string s ∈ tokens → specials s ≤ k := by
  unfold finish at hfin
  split at hfin
  · obtain rfl := Option.some.inj hfin
    exact h.1
  · exact absurd hfin (by simp)
  · split_ifs at hfin
    obtain rfl := Option.some.inj hfin
    exact bounded_append h.1 (by simp)
  · obtain ⟨token, hword, rfl⟩ := Option.map_eq_some_iff.mp hfin
    refine bounded_append h.1 ?_
    rintro s rfl
    exact absurd hword word_ne_string

theorem bounded_start (h : ∀ s, .string s ∈ tokens → specials s ≤ k)
    {b : UInt8} (hstart : start tokens b = some m) : m.Bounded k := by
  unfold start at hstart
  split_ifs at hstart
  case pos | pos | pos | pos | pos | pos =>
    obtain rfl := Option.some.inj hstart
    exact ⟨h, by simp⟩
  obtain ⟨token, hpunct, rfl⟩ := Option.map_eq_some_iff.mp hstart
  refine ⟨bounded_append h ?_, by simp⟩
  rintro s rfl
  exact absurd hpunct punctuation_ne_string

/-- One more byte of a string. -/
theorem Bounded.push (h : l.Bounded k) {raw : List UInt8} {escape : Bool}
    (hmode : l.mode = .string raw escape) {b : UInt8} {escape' : Bool} :
    Bounded (k + [b].count 92) ⟨.string (raw ++ [b]) escape', l.tokens⟩ := by
  refine ⟨(h.mono (Nat.le_add_right k _)).1, ?_⟩
  rintro raw' e ⟨⟩
  rw [List.count_append]
  exact Nat.add_le_add_right (h.2 raw escape hmode) _

theorem Bounded.step (h : l.Bounded k) {b : UInt8} (hstep : l.step b = some m) :
    m.Bounded (k + [b].count 92) := by
  unfold Lexer.step at hstep
  split at hstep
  · exact (bounded_start h.1 hstep).mono (Nat.le_add_right k _)
  · rename_i raw hmode
    obtain rfl := Option.some.inj hstep
    exact h.push hmode
  · rename_i raw hmode
    split_ifs at hstep
    · obtain ⟨s, hs, rfl⟩ := Option.map_eq_some_iff.mp hstep
      refine Bounded.mono ⟨bounded_append h.1 ?_, by simp⟩ (Nat.le_add_right k _)
      rintro s' ⟨⟩
      exact Nat.le_trans (specials_unescape hs) (h.2 raw false hmode)
    · obtain rfl := Option.some.inj hstep
      exact h.push hmode
  · split at hstep
    · obtain rfl := Option.some.inj hstep
      exact ⟨(h.mono (Nat.le_add_right k _)).1, by simp⟩
    · obtain ⟨tokens, hfin, hstart⟩ := Option.bind_eq_some_iff.mp hstep
      exact (bounded_start (bounded_finish h hfin) hstart).mono
        (Nat.le_add_right k _)
  · split_ifs at hstep
    · obtain rfl := Option.some.inj hstep
      exact ⟨(h.mono (Nat.le_add_right k _)).1, by simp⟩
    · obtain ⟨tokens, hfin, hstart⟩ := Option.bind_eq_some_iff.mp hstep
      exact (bounded_start (bounded_finish h hfin) hstart).mono
        (Nat.le_add_right k _)

theorem Bounded.run (h : l.Bounded k) (hrun : l.run text = some m) :
    m.Bounded (k + text.count 92) := by
  induction text generalizing l k with
  | nil =>
    obtain rfl := Option.some.inj hrun
    exact h
  | cons b rest ih =>
    rw [run_cons, Option.bind_eq_some_iff] at hrun
    obtain ⟨l', hstep, hrun⟩ := hrun
    have hrest := ih (h.step hstep) hrun
    rw [← List.singleton_append, List.count_append, ← Nat.add_assoc]
    exact hrest

end Lexer

theorem specials_le_of_lex {text : List UInt8} {tokens : List Token}
    (h : lex text = some tokens) {s : List UInt8} (hs : .string s ∈ tokens) :
    specials s ≤ text.count 92 := by
  obtain ⟨l, hrun, hfin⟩ := Option.bind_eq_some_iff.mp h
  have hstart : Lexer.Bounded 0 ⟨.blank, []⟩ := ⟨by simp, by simp⟩
  have hend := hstart.run hrun
  rw [Nat.zero_add] at hend
  exact Lexer.bounded_finish hend hfin s hs

/-- A string that is not inside another value is one of the tokens. -/
def Value.Shallow (tokens : List Token) : Value → Prop
  | .string s => .string s ∈ tokens
  | .object members => ∀ name s, (name, .string s) ∈ members →
      Token.string s ∈ tokens
  | _ => True

def Frame.Shallow (tokens : List Token) : Frame → Prop
  | .array _ => True
  | .object members _ => (Value.object members).Shallow tokens

def Parser.Shallow (tokens : List Token) : Parser → Prop
  | .value stack => ∀ f ∈ stack, f.Shallow tokens
  | .element stack => ∀ f ∈ stack, f.Shallow tokens
  | .member stack => ∀ f ∈ stack, f.Shallow tokens
  | .name members stack => (Value.object members).Shallow tokens ∧
      ∀ f ∈ stack, f.Shallow tokens
  | .colon members _ stack => (Value.object members).Shallow tokens ∧
      ∀ f ∈ stack, f.Shallow tokens
  | .behind v stack => v.Shallow tokens ∧ ∀ f ∈ stack, f.Shallow tokens

variable {tokens : List Token}

theorem Value.Shallow.member {members : List (List UInt8 × Value)}
    (h : (Value.object members).Shallow tokens) {v : Value}
    (hv : v.Shallow tokens) (name : List UInt8) :
    (Value.object (members ++ [(name, v)])).Shallow tokens := by
  intro name' s hs
  rcases List.mem_append.mp hs with hold | hlast
  · exact h name' s hold
  · obtain ⟨-, rfl⟩ := Prod.mk.inj (List.mem_singleton.mp hlast)
    exact hv

theorem Parser.shallow_start {stack : List Frame}
    (h : ∀ f ∈ stack, f.Shallow tokens) {token : Token} (htoken : token ∈ tokens)
    {q : Parser} (hstart : start stack token = some q) : q.Shallow tokens := by
  cases token with
  | null | bool | number =>
    obtain rfl := Option.some.inj hstart
    exact ⟨trivial, h⟩
  | string =>
    obtain rfl := Option.some.inj hstart
    exact ⟨htoken, h⟩
  | beginArray | beginObject =>
    obtain rfl := Option.some.inj hstart
    exact h
  | endObject | endArray | nameSeparator | valueSeparator =>
    exact absurd hstart (by simp [start])

theorem Parser.Shallow.step {p : Parser} (h : p.Shallow tokens) {token : Token}
    (htoken : token ∈ tokens) {q : Parser} :
    p.step token = some q → q.Shallow tokens := by
  have hnil : (Value.object []).Shallow tokens := by
    intro name s hs
    exact absurd hs List.not_mem_nil
  fun_cases Parser.step p token with
  | case1 stack => exact shallow_start h htoken
  | case2 stack =>
    rintro ⟨⟩
    exact ⟨trivial, h⟩
  | case3 stack _ =>
    have harray : (Frame.array []).Shallow tokens := trivial
    exact shallow_start (List.forall_mem_cons.mpr ⟨harray, h⟩) htoken
  | case4 stack | case5 stack key =>
    rintro ⟨⟩
    exact ⟨hnil, h⟩
  | case6 members stack key =>
    rintro ⟨⟩
    exact h
  | case7 members key stack =>
    rintro ⟨⟩
    exact List.forall_mem_cons.mpr h
  | case8 v elements stack =>
    rintro ⟨⟩
    have harray : (Frame.array (elements ++ [v])).Shallow tokens := trivial
    exact List.forall_mem_cons.mpr ⟨harray, (List.forall_mem_cons.mp h.2).2⟩
  | case9 v elements stack =>
    rintro ⟨⟩
    exact ⟨trivial, (List.forall_mem_cons.mp h.2).2⟩
  | case10 v members key stack | case11 v members key stack =>
    rintro ⟨⟩
    obtain ⟨hframe, hstack⟩ := List.forall_mem_cons.mp h.2
    exact ⟨Value.Shallow.member hframe h.1 key, hstack⟩
  | case12 => exact fun hno => absurd hno (by simp)

theorem Parser.Shallow.run {p q : Parser} (h : p.Shallow tokens)
    {rest : List Token} (hrest : ∀ token ∈ rest, token ∈ tokens)
    (hrun : rest.foldlM Parser.step p = some q) : q.Shallow tokens := by
  induction rest generalizing p with
  | nil =>
    obtain rfl := Option.some.inj hrun
    exact h
  | cons token rest ih =>
    obtain ⟨htoken, hrest⟩ := List.forall_mem_cons.mp hrest
    obtain ⟨p', hstep, hrun⟩ := Option.bind_eq_some_iff.mp hrun
    exact ih (h.step htoken hstep) hrest hrun

/-- A string that is a member of the value is one of the tokens. -/
theorem string_mem_of_parseTokens {v : Value} (h : parseTokens tokens = some v)
    {name s : List UInt8} (hget : v.get? name = some (.string s)) :
    .string s ∈ tokens := by
  obtain ⟨p, hrun, hfin⟩ := Option.bind_eq_some_iff.mp h
  have hstart : Parser.Shallow tokens (.value []) := by
    intro f hf
    exact absurd hf List.not_mem_nil
  have hend := hstart.run (fun _ ht => ht) hrun
  cases v with
  | object members =>
    have hv : (Value.object members).Shallow tokens := by
      unfold Parser.finish at hfin
      split at hfin
      · obtain rfl := Option.some.inj hfin
        exact hend.1
      · exact absurd hfin (by simp)
    exact hv name s (List.mem_reverse.mp (mem_of_lookup hget))
  | _ => exact absurd hget (by simp [Value.get?])

/-- A string in a JSON text has no more special characters than the text has
backslashes. -/
theorem specials_le_of_parse {text : List UInt8} {v : Value}
    (h : parse text = some v) {name s : List UInt8}
    (hget : v.get? name = some (.string s)) : specials s ≤ text.count 92 := by
  unfold parse at h
  split_ifs at h
  obtain ⟨tokens, hlex, hparse⟩ := Option.bind_eq_some_iff.mp h
  exact specials_le_of_lex hlex (string_mem_of_parseTokens hparse hget)

end CodeLib.Json
