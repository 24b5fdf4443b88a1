import PatternCompiler.Proofs.Tokens
import PatternCompiler.Proofs.Words

/-! Literals of the generated source, read back.

`Literal.read` reads a literal as the generated source is read: a backslash begins an escape, any
other character stands for itself, and the first quote that is not escaped ends the literal.
`literals_read_back` says that a character or a text written as a literal is read as what it was,
whatever comes after the literal, and that nothing between the quotes could end it early. -/
namespace PatternCompiler.Literal

open Quoted

/-! ### Reading -/

/-- Where the reader of a literal is. -/
inductive State where
  | text
  /-- Past a backslash. -/
  | escape
  /-- Past a backslash and the letter of a number. -/
  | brace
  /-- Past so many digits of a number. -/
  | digits (value count : Nat)
deriving DecidableEq

/-- What the escapes of one character stand for. -/
def escape? : Char → Option Char
  | '\\' => some '\\'
  | 'n' => some '\n'
  | 'r' => some '\r'
  | 't' => some '\t'
  | '0' => some '\x00'
  | '\'' => some '\''
  | '"' => some '"'
  | _ => none

/-- Takes one character, which may complete one of the text. A number has one to six digits. -/
def State.next? : State → Char → Option (State × Option Char)
  | text, c => some (if c = '\\' then (escape, none) else (text, some c))
  | escape, c => if c = 'u' then some (brace, none) else (escape? c).map fun d => (text, some d)
  | brace, c => if c = '\x7b' then some (digits 0 0, none) else none
  | digits n count, c =>
    match Cursor.hexDigit? c with
    | some d => if count < 6 then some (digits (16 * n + d) (count + 1), none) else none
    | none => if c = '\x7d' ∧ 0 < count then (Scalar.ofCode? n).map fun d => (text, some d) else none

/-- Reads up to the closing quote, and past it. -/
def readFrom (quote : Char) : State → List Char → Option (List Char × List Char)
  | _, [] => none
  | s, c :: cs =>
    if s = .text ∧ c = quote then some ([], cs)
    else do
      let (s, found) ← s.next? c
      let (text, rest) ← readFrom quote s cs
      some (found.toList ++ text, rest)

/-- Reads a literal between quotes: its text, and what comes after it. -/
def read (quote : Char) : List Char → Option (List Char × List Char)
  | [] => none
  | c :: cs => if c = quote then readFrom quote .text cs else none

def readString (cs : List Char) : Option (String × List Char) := do
  let (text, rest) ← read '"' cs
  some (String.ofList text, rest)

/-- A literal of a character holds exactly one. -/
def readChar (cs : List Char) : Option (Char × List Char) := do
  let (text, rest) ← read '\'' cs
  match text with
  | [c] => some (c, rest)
  | _ => none

/-! ### What is between the quotes -/

/-- The characters that end a line. -/
def lineBreaks : List Char := ['\n', '\x0b', '\x0c', '\r']

/-- The text ends with a backslash that is not escaped itself, so that what follows is. -/
def escapes (text : List Char) : Bool := text.foldl (fun escaped c => !escaped && c == '\\') false

/-- A text that can stand between two quotes. -/
structure Fits (quote : Char) (text : List Char) : Prop where
  unbroken : ∀ c ∈ text, c ∉ lineBreaks
  escaped : ∀ before after, text = before ++ quote :: after → escapes before = true
  /-- The quote after it is not escaped. -/
  settled : escapes text = false

variable {quote c : Char} {xs ys rest : List Char}

theorem escapes_append (h : escapes xs = false) : escapes (xs ++ ys) = escapes ys := by
  rw [escapes, List.foldl_append]
  exact congrArg (List.foldl _ · ys) h

theorem escapes_of_notMem (h : '\\' ∉ xs) : escapes xs = false := by
  cases xs using List.reverseRecOn with
  | nil => rfl
  | append_singleton xs c =>
    have hc : (c == '\\') = false := by
      rw [beq_eq_false_iff_ne]
      rintro rfl
      exact h (by simp)
    rw [escapes, List.foldl_append, List.foldl_cons, List.foldl_nil, hc, Bool.and_false]

/-- Characters that mean nothing special between quotes. -/
theorem Fits.plain (h : ∀ c ∈ xs, c ≠ '\\' ∧ c ≠ quote ∧ c ∉ lineBreaks) : Fits quote xs where
  unbroken c hc := (h c hc).2.2
  escaped before after hxs := absurd rfl (h quote (by simp [hxs])).2.1
  settled := escapes_of_notMem fun hslash => (h _ hslash).1 rfl

/-- A backslash and what it escapes, which may be the quote. -/
theorem Fits.pair (hquote : '\\' ≠ quote) (hc : c ∉ lineBreaks) : Fits quote ['\\', c] where
  unbroken := List.forall_mem_cons.mpr ⟨by decide, List.forall_mem_singleton.mpr hc⟩
  escaped before after h := by
    cases before with
    | nil => exact absurd (List.cons.inj h).1 hquote
    | cons d before =>
      obtain ⟨rfl, h⟩ := List.cons.inj h
      cases before with
      | nil => rfl
      | cons e before => simp at h
  settled := by simp [escapes]

theorem Fits.append (hx : Fits quote xs) (hy : Fits quote ys) : Fits quote (xs ++ ys) := by
  refine ⟨List.forall_mem_append.mpr ⟨hx.unbroken, hy.unbroken⟩, fun before after h => ?_, ?_⟩
  · -- The quote is in one of the two, and what is before it begins in the same one or at its start.
    rcases List.append_eq_append_iff.mp h with ⟨mid, rfl, hys⟩ | ⟨mid, rfl, hafter⟩
    · rw [escapes_append hx.settled]
      exact hy.escaped mid after hys
    · cases mid with
      | nil =>
        rw [List.append_nil] at hx
        rw [← List.append_nil before, escapes_append hx.settled]
        exact hy.escaped [] after hafter.symm
      | cons d mid =>
        obtain ⟨rfl, rfl⟩ := List.cons.inj hafter
        exact hx.escaped before mid rfl
  · rw [escapes_append hx.settled, hy.settled]

theorem Fits.flatMap {f : Char → List Char} (h : ∀ c, Fits quote (f c)) (cs : List Char) :
    Fits quote (cs.flatMap f) := by
  induction cs with
  | nil => exact .plain (List.forall_mem_nil _)
  | cons c cs ih => exact (h c).append ih

/-! ### One character -/

/-- From one state, a piece of a literal is read as these characters and leaves the reader in another. -/
def Reads (quote : Char) (s : State) (piece text : List Char) (t : State) : Prop :=
  ∀ rest, readFrom quote s (piece ++ rest) = (readFrom quote t rest).map fun read => (text ++ read.1, read.2)

variable {s t u : State} {text text' : List Char}

theorem Reads.nil : Reads quote s [] [] s := fun _ => Option.map_id'.symm

theorem Reads.append (hx : Reads quote s xs text t) (hy : Reads quote t ys text' u) :
    Reads quote s (xs ++ ys) (text ++ text') u := by
  intro rest
  rw [List.append_assoc, hx, hy, Option.map_map]
  congr 1
  funext read
  simp only [Function.comp_apply, List.append_assoc]

theorem readFrom_cons {found : Option Char} (h : s.next? c = some (t, found)) (hgoes : s ≠ .text ∨ c ≠ quote)
    (rest : List Char) :
    readFrom quote s (c :: rest) = (readFrom quote t rest).map fun read => (found.toList ++ read.1, read.2) := by
  rw [readFrom, if_neg (not_and_or.mpr hgoes), h]
  simp only [Option.bind_eq_bind, Option.bind_some]
  cases readFrom quote t rest <;> rfl

/-- A character within an escape. -/
theorem Reads.silent (h : s.next? c = some (t, none)) (hgoes : s ≠ .text ∨ c ≠ quote) :
    Reads quote s [c] [] t := readFrom_cons h hgoes

/-- A character that completes one of the text. -/
theorem Reads.complete {d : Char} (h : s.next? c = some (t, some d)) (hgoes : s ≠ .text ∨ c ≠ quote) :
    Reads quote s [c] [d] t := readFrom_cons h hgoes

theorem Reads.flatMap {f : Char → List Char} (h : ∀ c, Reads quote .text (f c) [c] .text) (cs : List Char) :
    Reads quote .text (cs.flatMap f) cs .text := by
  induction cs with
  | nil => exact .nil
  | cons c cs ih => exact (h c).append ih

/-- Digits are read up to the value of the number. -/
theorem reads_toDigits {n : Nat} (h : n < 16 ^ 6) :
    Reads quote (.digits 0 0) (Nat.toDigits 16 n) [] (.digits n (Nat.toDigits 16 n).length) := by
  have hdigit : ∀ {m count d : Nat}, count < 6 → d < 16 →
      Reads quote (.digits m count) [Nat.digitChar d] [] (.digits (16 * m + d) (count + 1)) := by
    intro m count d hcount hd
    refine .silent ?_ (.inl (by simp))
    simp only [State.next?, Cursor.hexDigit?_digitChar hd, if_pos hcount]
  induction n using Nat.strongRecOn with
  | ind n ih =>
    rw [Nat.toDigits_eq_if (by decide)]
    split
    · simpa using hdigit (m := 0) (by decide) ‹n < 16›
    · have hcount : (Nat.toDigits 16 (n / 16)).length ≤ 5 := by
        rw [Nat.length_toDigits_le_iff (by decide) (by decide)]
        omega
      have hlast := hdigit (m := n / 16) (Nat.lt_succ_of_le hcount) (Nat.mod_lt n (by decide))
      rw [Nat.div_add_mod] at hlast
      rw [List.length_append]
      exact (ih (n / 16) (by omega) (by omega)).append hlast

theorem byNumber_eq (c : Char) :
    byNumber c = ['\\'] ++ (['u'] ++ (['\x7b'] ++ (Nat.toDigits 16 c.toNat ++ ['\x7d']))) := rfl

section

variable (hquote : quote = '\'' ∨ quote = '"')

include hquote

/-- The three ways to write a character: as itself, with a backslash, by its number. -/
theorem literalChar_forms (c : Char) :
    (literalChar quote c = [c] ∧ c ≠ '\\' ∧ c ≠ quote ∧ c ∉ lineBreaks) ∨
    (∃ d, literalChar quote c = ['\\'] ++ [d] ∧ escape? d = some c) ∨ literalChar quote c = byNumber c := by
  have hbreaks : ∀ d ∈ lineBreaks,
      (' ' ≤ d && d ≤ '~') = false ∧ Unicode.isAscii d = true ∧ d.isAlphanum = false := by
    intro d hd
    fin_cases hd <;> decide
  unfold literalChar
  -- The first four are escaped in both kinds of literals.
  iterate 4 (split; · rename_i hc; exact .inr (.inl ⟨_, rfl, by rw [hc]; rfl⟩))
  split
  · rename_i hzero
    exact .inr (.inl ⟨_, rfl, congrArg some (Char.toNat_inj.mp hzero.symm)⟩)
  split
  · rename_i hc
    rcases hquote with rfl | rfl <;> exact .inr (.inl ⟨_, rfl, by rw [hc]; rfl⟩)
  split
  · rename_i hslash _ _ _ _ hne hshown
    refine .inl ⟨rfl, hslash, hne, fun hbreak => ?_⟩
    obtain ⟨hhidden, hascii, hplain⟩ := hbreaks c hbreak
    rw [Unicode.isAlphanumeric, if_pos hascii, hplain, hhidden] at hshown
    exact absurd hshown (by decide)
  · exact .inr (.inr rfl)

theorem reads_backslash : Reads quote .text ['\\'] [] .escape :=
  .silent rfl (.inr (by rcases hquote with rfl | rfl <;> decide))

theorem reads_byNumber (c : Char) : Reads quote .text (byNumber c) [c] .text := by
  have hclose : Reads quote (.digits c.toNat (Nat.toDigits 16 c.toNat).length) ['\x7d'] [c] .text := by
    refine .complete ?_ (.inl (by simp))
    have hbrace : Cursor.hexDigit? '\x7d' = none := by decide
    simp only [State.next?, hbrace, true_and, Nat.length_toDigits_pos, if_pos, Cursor.ofCode?_toNat,
      Option.map_some]
  have hvalue : c.toNat < 16 ^ 6 := by
    have hvalid : c.toNat.isValidChar := c.valid
    unfold Nat.isValidChar at hvalid
    omega
  rw [byNumber_eq]
  exact (reads_backslash hquote).append <| (Reads.silent rfl (.inl (by simp))).append <|
    (Reads.silent rfl (.inl (by simp))).append <| (reads_toDigits hvalue).append hclose

theorem reads_literalChar (c : Char) : Reads quote .text (literalChar quote c) [c] .text := by
  rcases literalChar_forms hquote c with ⟨hform, hslash, hne, _⟩ | ⟨d, hform, hd⟩ | hform
  · rw [hform]
    exact .complete (by rw [State.next?, if_neg hslash]) (.inr hne)
  · have hu : d ≠ 'u' := by
      rintro rfl
      cases hd
    rw [hform]
    refine (reads_backslash hquote).append (.complete ?_ (.inl (by simp)))
    rw [State.next?, if_neg hu, hd, Option.map_some]
  · rw [hform]
    exact reads_byNumber hquote c

theorem fits_byNumber (c : Char) : Fits quote (byNumber c) := by
  have hdigit : ∀ d < 16, Nat.digitChar d ∉ '\\' :: '\'' :: '"' :: lineBreaks := by decide
  have hplain : ∀ d ∈ '\x7b' :: (Nat.toDigits 16 c.toNat ++ ['\x7d']), d ∉ '\\' :: '\'' :: '"' :: lineBreaks := by
    intro d hd
    rcases List.mem_cons.mp hd with rfl | hd
    · decide
    rcases List.mem_append.mp hd with hd | hd
    · obtain ⟨v, hv, rfl⟩ := exists_digitChar hd
      exact hdigit v hv
    · rw [List.mem_singleton.mp hd]
      decide
  refine (Fits.pair ?_ (by decide)).append (Fits.plain fun d hd => ?_)
  · rcases hquote with rfl | rfl <;> decide
  · have hd := hplain d hd
    simp only [List.mem_cons, not_or] at hd
    rcases hquote with rfl | rfl
    · exact ⟨hd.1, hd.2.1, hd.2.2.2⟩
    · exact ⟨hd.1, hd.2.2⟩

theorem fits_literalChar (c : Char) : Fits quote (literalChar quote c) := by
  rcases literalChar_forms hquote c with ⟨hform, hslash, hne, hbreak⟩ | ⟨d, hform, hd⟩ | hform
  · rw [hform]
    exact .plain (List.forall_mem_singleton.mpr ⟨hslash, hne, hbreak⟩)
  · have hbreaks : ∀ d ∈ lineBreaks, escape? d = none := by
      intro d hd
      fin_cases hd <;> rfl
    rw [hform]
    refine .pair (by rcases hquote with rfl | rfl <;> decide) fun hbreak => ?_
    rw [hbreaks d hbreak] at hd
    cases hd
  · rw [hform]
    exact fits_byNumber hquote c

end

/-! ### Whole literals -/

theorem read_quoted (h : Reads quote .text xs text .text) (rest : List Char) :
    read quote (quote :: xs ++ [quote] ++ rest) = some (text, rest) := by
  have hend : readFrom quote .text (quote :: rest) = some ([], rest) := by rw [readFrom, if_pos ⟨rfl, rfl⟩]
  rw [List.append_assoc, List.cons_append, read, if_pos rfl, h, List.singleton_append, hend, Option.map_some,
    List.append_nil]

theorem readString_stringLiteral (s : String) (rest : List Char) :
    readString ((stringLiteral s).toList ++ rest) = some (s, rest) := by
  rw [stringLiteral, String.toList_ofList, readString,
    read_quoted (Reads.flatMap (reads_literalChar (.inr rfl)) s.toList)]
  simp only [Option.bind_eq_bind, Option.bind_some, String.ofList_toList]

theorem readChar_charLiteral (c : Char) (rest : List Char) :
    readChar ((charLiteral c).toList ++ rest) = some (c, rest) := by
  rw [charLiteral, String.toList_ofList, readChar, read_quoted (reads_literalChar (.inl rfl) c)]
  rfl

/-- **What is written as a literal is read as what it was**, whatever follows. So different texts have
different literals, and no quote or line break among the characters written can end one early. -/
theorem literals_read_back :
    (∀ s rest, readString ((stringLiteral s).toList ++ rest) = some (s, rest)) ∧
    (∀ c rest, readChar ((charLiteral c).toList ++ rest) = some (c, rest)) ∧
    Function.Injective stringLiteral ∧ Function.Injective charLiteral ∧
    (∀ s, ∃ text, (stringLiteral s).toList = '"' :: text ++ ['"'] ∧ Fits '"' text) ∧
    ∀ c, ∃ text, (charLiteral c).toList = '\'' :: text ++ ['\''] ∧ Fits '\'' text := by
  refine ⟨readString_stringLiteral, readChar_charLiteral, fun s s' h => ?_, fun c c' h => ?_, fun s => ?_, fun c => ?_⟩
  · have hread := readString_stringLiteral s []
    rw [h, readString_stringLiteral] at hread
    exact (Prod.mk.inj (Option.some.inj hread)).1.symm
  · have hread := readChar_charLiteral c []
    rw [h, readChar_charLiteral] at hread
    exact (Prod.mk.inj (Option.some.inj hread)).1.symm
  · exact ⟨_, String.toList_ofList, .flatMap (fits_literalChar (.inr rfl)) s.toList⟩
  · exact ⟨_, String.toList_ofList, fits_literalChar (.inl rfl) c⟩

end PatternCompiler.Literal
