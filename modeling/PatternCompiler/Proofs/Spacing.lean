import PatternCompiler.Proofs.Tokens

/-! Tokens of a pattern, and what may stand between them.

A pattern is written as a list of tokens. In a pattern that ignores blanks, spaces and comments
may stand between any two of them (`Filler`). `spread true` writes the tokens with what is between
them, and `spread false` the tokens alone.

The cursor's readers take each token for what it says, whatever follows, or fail on it, whatever
follows (`Answers`): a number can be too great, a code can name no character, a range can be
reversed. What is between two tokens is skipped, and no more (`Cursor.skipBlanks_spread`); a run of
literal characters ends between two tokens (`Cursor.literalRunFrom_spread`). -/
namespace PatternCompiler

/-! ### What is between tokens -/

/-- A blank: a space, a comment up to the end of its line, or a comment in parentheses. -/
inductive Filler where
  | space (c : Char) (h : Cursor.isSpace c = true)
  | line (text : List Char) (h : '\n' ∉ text)
  | paren (text : List Char) (h : ')' ∉ text)

def Filler.text : Filler → List Char
  | space c _ => [c]
  | line text _ => '#' :: (text ++ ['\n'])
  | paren text _ => '(' :: '?' :: '#' :: (text ++ [')'])

/-- The text between two tokens, if there is to be one. -/
def gap (spaces : Bool) (g : List Filler) : List Char := if spaces then g.flatMap Filler.text else []

/-- No options but that blanks may be ignored. -/
def Options.spaced (spaces : Bool) : Options := { ignoreWhitespace := spaces }

namespace Cursor

variable {c : Cursor} {spaces : Bool} {rest : List Char}

/-- A comment goes on to the first character that ends it. -/
theorem skipBlanksFrom_text {mode : Blank} {stop : Char} (hmode : mode = .line ∧ stop = '\n' ∨ mode = .paren ∧ stop = ')')
    {text : List Char} (h : stop ∉ text) (pos : Nat) :
    skipBlanksFrom spaces mode pos (text ++ stop :: rest) =
      skipBlanksFrom spaces .between (pos + (text.length + 1)) rest := by
  induction text generalizing pos with
  | nil => rcases hmode with ⟨rfl, rfl⟩ | ⟨rfl, rfl⟩ <;> rfl
  | cons ch text ih =>
    obtain ⟨hch, htext⟩ := not_or.mp (List.mem_cons.not.mp h)
    have hnext : skipBlanksFrom spaces mode pos (ch :: (text ++ stop :: rest)) =
        skipBlanksFrom spaces mode (pos + 1) (text ++ stop :: rest) := by
      rcases hmode with ⟨rfl, rfl⟩ | ⟨rfl, rfl⟩ <;> rw [skipBlanksFrom, if_neg (Ne.symm hch)]
    rw [List.cons_append, hnext, ih htext, List.length_cons]
    congr 1
    omega

theorem skipBlanksFrom_filler (f : Filler) (pos : Nat) :
    skipBlanksFrom true .between pos (f.text ++ rest) =
      skipBlanksFrom true .between (pos + f.text.length) rest := by
  cases f with
  | space c h =>
    rw [Filler.text, List.singleton_append, skipBlanksFrom, if_pos (by simp [h])]
    rfl
  | line text h =>
    have hline : skipBlanksFrom true .line (pos + 1) (text ++ '\n' :: rest) = _ :=
      skipBlanksFrom_text (.inl ⟨rfl, rfl⟩) h (pos + 1)
    rw [Filler.text, List.cons_append, List.append_assoc, skipBlanksFrom, if_neg (by decide), if_pos (by decide),
      List.singleton_append, hline]
    simp only [List.length_cons, List.length_append, List.length_nil]
    congr 1
    omega
  | paren text h =>
    have hopen : ')' ∉ '?' :: '#' :: text := by simpa using h
    have hparen : skipBlanksFrom true .paren (pos + 1) ('?' :: '#' :: (text ++ ')' :: rest)) = _ :=
      skipBlanksFrom_text (.inr ⟨rfl, rfl⟩) hopen (pos + 1)
    rw [Filler.text, List.cons_append, skipBlanksFrom, if_neg (by decide), if_neg (by decide), if_pos (by simp)]
    rw [List.cons_append, List.cons_append, List.append_assoc, List.singleton_append, hparen]
    simp only [List.length_cons, List.length_append, List.length_nil]
    congr 1
    omega

/-- What is between two tokens is skipped. -/
theorem skipBlanksFrom_gap (spaces : Bool) (g : List Filler) (pos : Nat) :
    skipBlanksFrom spaces .between pos (gap spaces g ++ rest) =
      skipBlanksFrom spaces .between (pos + (gap spaces g).length) rest := by
  cases spaces with
  | false => rfl
  | true =>
    show skipBlanksFrom true .between pos (g.flatMap Filler.text ++ rest) =
      skipBlanksFrom true .between (pos + (g.flatMap Filler.text).length) rest
    induction g generalizing pos with
    | nil => rfl
    | cons f g ih =>
      rw [List.flatMap_cons, List.append_assoc, skipBlanksFrom_filler, ih, List.length_append, Nat.add_assoc]

end Cursor

/-! ### Answers -/

/-- A reader fails where there is no answer, and gives what stands in the given relation to it where there
is one. -/
inductive Answers {α β : Type} (R : α → β → Prop) : Except Problem α → Option β → Prop where
  | error (p : Problem) : Answers R (.error p) none
  | ok {a : α} {b : β} (h : R a b) : Answers R (.ok a) (some b)

namespace Answers

variable {α β γ δ : Type} {R : α → β → Prop} {S : γ → δ → Prop} {x : Except Problem α} {y : Option β}
  {f : α → Except Problem γ} {g : β → Option δ}

theorem bind (h : Answers R x y) (hnext : ∀ a b, R a b → Answers S (f a) (g b)) :
    Answers S (x >>= f) (y >>= g) := by
  cases h with
  | error p => exact .error p
  | ok h => exact hnext _ _ h

theorem map {R' : α → δ → Prop} {g : β → δ} (h : Answers R x y) (himp : ∀ a b, R a b → R' a (g b)) :
    Answers R' x (y >>= fun b => some (g b)) := by
  cases h with
  | error p => exact .error p
  | ok h => exact .ok (himp _ _ h)

theorem map_left {R' : γ → β → Prop} {f : α → γ} (h : Answers R x y) (himp : ∀ a b, R a b → R' (f a) b) :
    Answers R' (x >>= fun a => .ok (f a)) y := by
  cases h with
  | error p => exact .error p
  | ok h => exact .ok (himp _ _ h)

theorem fail (c : Cursor) (cause : SyntaxError.Cause) : Answers R (c.fail cause) none := .error _

end Answers

/-! ### Numerals and codes -/

/-- The number, unless it is too great. -/
def Numeral.value? (n : Numeral) : Option Nat :=
  if Nat.ofDigitChars 10 n.digits 0 ≤ unbounded then some (Nat.ofDigitChars 10 n.digits 0) else none

/-- The number of a character, as it is written after a backslash: four hexadecimal digits. -/
structure HexCode where
  digits : List Char
  length : digits.length = 4
  all : ∀ d ∈ digits, (Cursor.hexDigit? d).isSome = true

namespace HexCode

def text (h : HexCode) : List Char := '\\' :: 'u' :: h.digits

/-- The value of digits that follow those with the value `n`. -/
def valueFrom (n : Nat) (digits : List Char) : Nat :=
  digits.foldl (fun n d => 16 * n + (Cursor.hexDigit? d).getD 0) n

/-- The character, if there is one with the number. -/
def char? (h : HexCode) : Option Char := Scalar.ofCode? (valueFrom 0 h.digits)

end HexCode

namespace Cursor

variable {c : Cursor} {rest : List Char}

/-- A numeral is read up to the first character that is no digit. -/
theorem decimal_numeral (n : Numeral) (hrest : ∀ d ∈ rest.head?, d.isDigit = false)
    (hc : c.rest = n.digits ++ rest) :
    Answers (fun a v => a = (v, ⟨c.pos + n.digits.length, rest⟩)) c.decimal n.value? := by
  rcases decimal_cases n hrest hc with ⟨hlt, offset, hread⟩ | ⟨hle, hread⟩
  · have hvalue : n.value? = none := if_neg (Nat.not_le.mpr hlt)
    rw [hread, hvalue]
    exact .error _
  · have hvalue : n.value? = some n.value := if_pos hle
    rw [hread, hvalue]
    exact .ok rfl

theorem hexFrom_digits {ds : List Char} (hds : ∀ d ∈ ds, (hexDigit? d).isSome = true) (n : Nat)
    (hc : c.rest = ds ++ rest) :
    hexFrom ds.length n c = .ok (HexCode.valueFrom n ds, ⟨c.pos + ds.length, rest⟩) := by
  induction ds generalizing c n with
  | nil =>
    obtain ⟨pos, cs⟩ := c
    cases hc
    rfl
  | cons d ds ih =>
    obtain ⟨v, hv⟩ := Option.isSome_iff_exists.mp (hds d List.mem_cons_self)
    have hrest := ih (c := ⟨c.pos + 1, ds ++ rest⟩) (fun e he => hds e (List.mem_cons_of_mem _ he)) (16 * n + v) rfl
    rw [List.length_cons, hexFrom, hc]
    simp only [List.cons_append, hv, hrest, HexCode.valueFrom, List.foldl_cons, Option.getD_some]
    congr 3
    omega

theorem hex_code (h : HexCode) (hc : c.rest = h.digits ++ rest) :
    Answers (fun a ch => a = (ch, ⟨c.pos + 4, rest⟩)) (c.hex 4) h.char? := by
  have hlen : ¬ c.rest.length < 4 := by
    rw [hc, List.length_append, h.length]
    omega
  have hread := hexFrom_digits h.all 0 hc
  rw [h.length] at hread
  unfold hex HexCode.char?
  simp only [if_neg hlen, hread, bind, Except.bind]
  cases Scalar.ofCode? (HexCode.valueFrom 0 h.digits) with
  | none => exact .fail _ _
  | some ch => exact .ok rfl

end Cursor

/-! ### Tokens -/

/-- A member of a bracketed class: a character or a range, by number. -/
inductive ClassMember where
  | single (code : HexCode)
  | range (lo hi : HexCode)

namespace ClassMember

def text : ClassMember → List Char
  | single code => code.text
  | range lo hi => lo.text ++ '-' :: hi.text

/-- The characters of the member, unless a code names none or the range is reversed. -/
def range? : ClassMember → Option CharRange
  | single code => do some (.single (← code.char?))
  | range lo hi => do
    let l ← lo.char?
    let h ← hi.char?
    if h < l then none else some ⟨l, h⟩

end ClassMember

/-- What a group begins with. -/
inductive Opener where
  | capture
  | plain
  | ahead
  | notAhead
  | greedy
deriving DecidableEq

namespace Opener

/-- What stands after the parenthesis. -/
def mark : Opener → List Char
  | capture => []
  | plain => ['?', ':']
  | ahead => ['?', '=']
  | notAhead => ['?', '!']
  | greedy => ['?', '>']

/-- The kind of the group, where the next group gets the number `next`. -/
def kind (next : Nat) : Opener → GroupKind
  | capture => .capture (some next) none
  | plain => .plain
  | ahead => .require
  | notAhead => .prevent
  | greedy => .greedy

/-- How many groups are numbered at it. -/
def count : Opener → Nat
  | capture => 1
  | _ => 0

end Opener

/-- The number, where the lesser bound is `low`, unless it is too great. -/
def Upper.value? (low : Nat) : Upper → Option Nat
  | same => some low
  | none => some unbounded
  | upTo n => n.value?

inductive Token where
  | literal (c : Char)
  | bracket (negated : Bool) (first : ClassMember) (members : List ClassMember)
  | assertion (a : Assertion) (letter : Char) (h : a.letter? = some letter)
  | reference (n : Numeral)
  | opener (o : Opener)
  | bar
  | close
  | count (min : Numeral) (max : Upper)
  | star
  | plus
  /-- A quantifier, or the suffix of one. -/
  | mark

namespace Token

/-- A literal character that is written with a backslash. -/
def escaped (c : Char) : Bool := Cursor.isSpecial c || Cursor.isSpace c || c == '#'

def text : Token → List Char
  | literal c => if escaped c then ['\\', c] else [c]
  | bracket negated first members =>
    '[' :: ((if negated then ['^'] else []) ++ ((first :: members).flatMap ClassMember.text ++ [']']))
  | assertion _ letter _ => ['\\', letter]
  | reference n => '\\' :: 'k' :: '<' :: (n.digits ++ ['>'])
  | opener o => '(' :: o.mark
  | bar => ['|']
  | close => [')']
  | count min max => '\x7b' :: (min.digits ++ (max.text ++ ['\x7d']))
  | star => ['*']
  | plus => ['+']
  | mark => ['?']

def isQuantifier : Token → Bool
  | count _ _ => true
  | star => true
  | plus => true
  | mark => true
  | _ => false

def isMark : Token → Bool
  | mark => true
  | _ => false

def isOpener : Token → Bool
  | opener _ => true
  | _ => false

/-- The bounds of a quantifier, unless a number is too great. -/
def bounds? : Token → Option (Nat × Nat)
  | count min max => do
    let low ← min.value?
    some (low, ← max.value? low)
  | star => some (0, unbounded)
  | plus => some (1, unbounded)
  | mark => some (0, 1)
  | _ => none

/-- A count has bounds if none of its numerals is too great. -/
theorem bounds?_numerals (min : Numeral) (max : Upper) :
    (count min max).bounds? =
      if ∀ n ∈ min :: max.numerals, n.value ≤ unbounded then some (min.value, max.value min.value) else none := by
  have hvalue (n : Numeral) : n.value? = if n.value ≤ unbounded then some n.value else none := rfl
  by_cases hmin : min.value ≤ unbounded
  · cases max with
    | upTo n =>
      by_cases hmax : n.value ≤ unbounded <;>
        simp [bounds?, Upper.value?, Upper.value, Upper.numerals, hvalue, hmin, hmax]
    | _ => simp [bounds?, Upper.value?, Upper.value, Upper.numerals, hvalue, hmin]
  · simp [bounds?, hvalue, hmin]

end Token

/-- The text of the tokens, with what stands between them if it is to stand there. -/
def spread (spaces : Bool) (ts : List (Token × List Filler)) : List Char :=
  ts.flatMap fun t => t.1.text ++ gap spaces t.2

@[simp] theorem gap_nil (spaces : Bool) (rest : List Char) : gap spaces [] ++ rest = rest := by
  cases spaces <;> rfl

theorem spread_cons (spaces : Bool) (t : Token) (g : List Filler) (ts : List (Token × List Filler)) :
    spread spaces ((t, g) :: ts) = t.text ++ (gap spaces g ++ spread spaces ts) := by
  simp [spread]

/-! ### Reading quantifiers -/

namespace Cursor

variable {c : Cursor} {rest : List Char}

/-- A count is read with its bounds. -/
theorem count?_token (min : Numeral) (max : Upper) (hc : c.rest = min.digits ++ (max.text ++ '\x7d' :: rest)) :
    Answers (fun a b => ∃ pos, a = some (b.1, b.2, ⟨pos, rest⟩)) c.count? (Token.count min max).bounds? := by
  rw [Token.bounds?_numerals]
  rcases count?_cases hc with ⟨⟨n, hn, hlt⟩, offset, hread⟩ | ⟨hle, hread⟩
  · rw [hread, if_neg fun hle => Nat.not_le.mpr hlt (hle n hn)]
    exact .error _
  · rw [hread, if_pos hle]
    exact .ok ⟨_, rfl⟩

/-- **A quantifier is read with its bounds.** -/
theorem bounds?_token {t : Token} (ht : t.isQuantifier = true) (hc : c.rest = t.text ++ rest) :
    Answers (fun a b => ∃ pos, a = some (b.1, b.2, ⟨pos, rest⟩)) c.bounds? t.bounds? := by
  unfold bounds?
  cases t with
  | count min max =>
    have hrest : c.rest = '\x7b' :: (min.digits ++ (max.text ++ '\x7d' :: rest)) := by
      simpa [Token.text] using hc
    rw [hrest]
    exact count?_token min max rfl
  | star | plus | mark =>
    rw [hc]
    exact .ok ⟨_, rfl⟩
  | _ => cases ht

end Cursor

/-! ### Reading classes -/

namespace Cursor

variable {c : Cursor} {rest : List Char} {m : BracketMode}

theorem member_code (code : HexCode) (level : CharClass.Level) (pending : Option Char) (first : Bool) (pos : Nat) :
    Answers (fun a ch => a = (.char ch true, ⟨pos + 1 + 4, rest⟩))
      (member m level pending first '\\' ⟨pos, 'u' :: (code.digits ++ rest)⟩) code.char? := by
  have hmember : member m level pending first '\\' ⟨pos, 'u' :: (code.digits ++ rest)⟩ =
      hex ⟨pos + 1, code.digits ++ rest⟩ 4 >>= fun a => .ok (.char a.1 true, a.2) := rfl
  have hread : Answers _ (hex ⟨pos + 1, code.digits ++ rest⟩ 4) code.char? := hex_code code rfl
  rw [hmember]
  apply hread.map_left
  rintro _ ch rfl
  rfl

theorem startsRange_members (ms : List ClassMember) :
    startsRange (ms.flatMap ClassMember.text ++ ']' :: rest) = false := by
  cases ms with
  | nil => rfl
  | cons member ms => cases member <;> rfl

/-- The members of a bracket, up to its closing bracket. -/
theorem levelFrom_members (level : CharClass.Level) (first : Bool) (ms : List ClassMember) {rounds : Nat}
    (hc : c.rest = ms.flatMap ClassMember.text ++ ']' :: rest) (hfirst : ms = [] → first = false)
    (hrounds : c.rest.length < rounds) :
    Answers (fun a rs => ∃ pos, a = ({ level with ranges := level.ranges ++ rs }, .closed, ⟨pos, rest⟩))
      (levelFrom m rounds level none first c) (ms.mapM ClassMember.range?) := by
  induction ms generalizing c rounds level first with
  | nil =>
    obtain ⟨k, rfl⟩ : ∃ k, rounds = k + 1 := ⟨rounds - 1, by omega⟩
    rw [hfirst rfl, levelFrom, hc]
    exact .ok ⟨c.pos + 1, by simp⟩
  | cons member ms ih =>
    -- The members after this one, once its range is known.
    have hnext (r : CharRange) (pos k : Nat)
        (hk : (ms.flatMap ClassMember.text ++ ']' :: rest).length < k) :
        Answers (fun a rs => ∃ pos, a = ({ level with ranges := level.ranges ++ rs }, .closed, ⟨pos, rest⟩))
          (levelFrom m k (level.addRange r) none false ⟨pos, ms.flatMap ClassMember.text ++ ']' :: rest⟩)
          (ms.mapM ClassMember.range? >>= fun rs => some (r :: rs)) := by
      apply (ih (c := ⟨pos, _⟩) (level.addRange r) false rfl (fun _ => rfl) hk).map
      rintro _ rs ⟨pos, rfl⟩
      refine ⟨pos, ?_⟩
      have happend : level.ranges ++ r :: rs = level.ranges ++ [r] ++ rs := by simp
      rw [happend]
      rfl
    rw [List.flatMap_cons, List.append_assoc] at hc
    rw [List.mapM_cons]
    cases member with
    | single code =>
      have hlong : (ms.flatMap ClassMember.text ++ ']' :: rest).length + 6 < rounds + 1 := by
        rw [hc] at hrounds
        simp only [ClassMember.text, HexCode.text, List.length_append, List.length_cons, code.length] at hrounds ⊢
        omega
      obtain ⟨k, rfl⟩ : ∃ k, rounds = k + 1 := ⟨rounds - 1, by omega⟩
      have hrange : startsRange (ms.flatMap ClassMember.text ++ ']' :: rest) = false := startsRange_members ms
      rw [levelFrom, hc, ClassMember.range?, bind_assoc]
      apply (member_code code level none first (c.pos + 1)).bind
      rintro _ ch rfl
      simp only [hrange, Bool.false_eq_true, if_false, reduceCtorEq, false_and, and_false]
      exact hnext (.single ch) _ k (by omega)
    | range lo hi =>
      have hlong : (ms.flatMap ClassMember.text ++ ']' :: rest).length + 13 < rounds + 1 := by
        rw [hc] at hrounds
        simp only [ClassMember.text, HexCode.text, List.length_append, List.length_cons, lo.length, hi.length]
          at hrounds ⊢
        omega
      obtain ⟨k, rfl⟩ : ∃ k, rounds = k + 2 := ⟨rounds - 2, by omega⟩
      have hrest : c.rest = '\\' :: 'u' :: (lo.digits ++
          '-' :: '\\' :: 'u' :: (hi.digits ++ (ms.flatMap ClassMember.text ++ ']' :: rest))) := by
        simpa [ClassMember.text, HexCode.text] using hc
      have hstarts : startsRange ('-' :: '\\' :: 'u' :: (hi.digits ++ (ms.flatMap ClassMember.text ++ ']' :: rest))) =
          true := rfl
      rw [levelFrom, hrest, ClassMember.range?, bind_assoc]
      apply (member_code lo level none first (c.pos + 1)).bind
      rintro _ l rfl
      simp only [hstarts, if_true]
      rw [levelFrom, bind_assoc]
      apply (member_code hi level (some l) false _).bind
      rintro _ h rfl
      simp only [reduceCtorEq, false_and, and_false, if_false, addRange]
      by_cases hlt : h < l
      · rw [if_pos hlt, if_pos hlt]
        exact .error _
      · rw [if_neg hlt, if_neg hlt]
        exact hnext ⟨l, h⟩ _ k (by omega)

/-- A class is negated by a mark before its members. -/
theorem skipChar_members (negated : Bool) (first : ClassMember) (ms : List ClassMember)
    (hc : c.rest = (if negated then ['^'] else []) ++ ((first :: ms).flatMap ClassMember.text ++ rest)) :
    (c.rest.head? == some '^') = negated ∧
      (c.skipChar '^').rest = (first :: ms).flatMap ClassMember.text ++ rest := by
  obtain ⟨pos, cs⟩ := c
  cases hc
  cases negated with
  | true => exact ⟨rfl, rfl⟩
  | false => cases first <;> exact ⟨rfl, rfl⟩

/-- **A bracketed class is read with its members.** -/
theorem bracket_token (hm : m.ignoreCase = false) (negated : Bool) (first : ClassMember) (ms : List ClassMember)
    (hc : c.rest = (if negated then ['^'] else []) ++
      ((first :: ms).flatMap ClassMember.text ++ ']' :: rest)) :
    Answers (fun a rs => ∃ pos, a = (CharClass.Level.resolve ⟨rs, [], negated⟩, ⟨pos, rest⟩)) (c.bracket m)
      ((first :: ms).mapM ClassMember.range?) := by
  obtain ⟨hnegated, hstart⟩ := skipChar_members negated first ms hc
  have hmembers : Answers _ (levelFrom m ((c.skipChar '^').rest.length + 1) ⟨[], [], negated⟩ none true
      (c.skipChar '^')) _ :=
    levelFrom_members _ true (first :: ms) hstart (by simp) (Nat.lt_succ_self _)
  have hlevel : level m c = levelFrom m ((c.skipChar '^').rest.length + 1) ⟨[], [], negated⟩ none true
      (c.skipChar '^') := by
    rw [level]
    simp only [hnegated, hm]
    cases negated <;> exact bind_pure _
  unfold bracket
  rw [levelsFrom, hlevel]
  generalize (first :: ms).mapM ClassMember.range? = y at hmembers ⊢
  generalize levelFrom m ((c.skipChar '^').rest.length + 1) ⟨[], [], negated⟩ none true (c.skipChar '^') = x
    at hmembers ⊢
  cases hmembers with
  | error p => exact .error p
  | ok h =>
    obtain ⟨pos', rfl⟩ := h
    exact .ok ⟨pos', rfl⟩

end Cursor

/-! ### Reading escapes -/

namespace Token

/-- The tokens that stand for something by themselves. -/
def isLeaf : Token → Bool
  | literal _ => true
  | bracket _ _ _ => true
  | assertion _ _ _ => true
  | reference _ => true
  | _ => false

/-- What a token stands for by itself, unless it is one that cannot be read: a literal, a class, an assertion or
a reference to a group that is known. -/
def leaf? (known : Nat → Bool) : Token → Option Leaf
  | literal c => some (.test (.one c))
  | bracket negated first members => do
    let ranges ← (first :: members).mapM ClassMember.range?
    some (.test (.set (CharClass.Level.resolve ⟨ranges, [], negated⟩)))
  | assertion a _ _ => some (.assertion a)
  | reference n => do
    let number ← n.value?
    if known number then some (.ref number) else none
  | _ => none

end Token

namespace Cursor

variable {c : Cursor} {rest : List Char} {e : Setting} {spaces : Bool}

theorem mem_of_isSpace {ch : Char} (h : isSpace ch = true) :
    ch ∈ [' ', '\t', '\n', Char.ofNat 0x0B, Char.ofNat 0x0C, '\r'] := by
  have hcode : ∀ n : Nat, ch.toNat = n → ch = Char.ofNat n := fun n hn => hn ▸ (Char.ofNat_toNat ch).symm
  simp only [isSpace, Bool.or_eq_true, beq_iff_eq] at h
  rcases h with ((((rfl | rfl) | rfl) | h) | h) | rfl
  · simp
  · simp
  · simp
  · simp [hcode _ h]
  · simp [hcode _ h]
  · simp

/-- A special character, a space or a hash after a backslash stands for itself. -/
theorem backslash_escaped {ch : Char} (hch : Token.escaped ch = true) (hc : c.rest = ch :: rest) :
    c.backslash e (.spaced spaces) = .ok (.test (.one ch), ⟨c.pos + 1, rest⟩) := by
  simp only [Token.escaped, Bool.or_eq_true, beq_iff_eq] at hch
  rcases hch with (hspecial | hspace) | hhash
  · exact backslash_special e hspecial hc
  · have hmem := mem_of_isSpace hspace
    obtain ⟨pos, cs⟩ := c
    obtain rfl : cs = ch :: rest := hc
    simp only [List.mem_cons, List.not_mem_nil, or_false] at hmem
    rcases hmem with rfl | rfl | rfl | rfl | rfl | rfl <;> rfl
  · obtain ⟨pos, cs⟩ := c
    obtain rfl : cs = ch :: rest := hc
    cases hhash
    rfl

/-- A number between its marks is a reference to a group, which has to be known. -/
theorem reference?_numeral (t : GroupTable) (n : Numeral) (hc : c.rest = 'k' :: '<' :: (n.digits ++ '>' :: rest)) :
    Answers (fun a number => ∃ pos, a = some (number, ⟨pos, rest⟩)) (reference? t false c)
      (n.value? >>= fun number => if t.contains number then some number else none) := by
  obtain ⟨d, ds, hds⟩ := List.exists_cons_of_ne_nil n.nonempty
  have hdigit : d.isDigit = true := n.all d (by simp [hds])
  have hread : Answers _ (decimal ⟨c.pos + 2, n.digits ++ '>' :: rest⟩) n.value? := decimal_numeral n (by simp) rfl
  have henclosed : reference? t false c = enclosedReference? t '>' ⟨c.pos + 2, n.digits ++ '>' :: rest⟩ := by
    rw [reference?, hc]
    exact if_neg (by simp)
  rw [henclosed, enclosedReference?]
  simp only [hds, List.cons_append, hdigit, if_true]
  rw [hds] at hread
  apply hread.bind
  rintro _ number rfl
  by_cases hknown : t.contains number = true
  · simp only [ne_eq, not_true_eq_false, if_false, hknown, if_true]
    exact .ok ⟨_, rfl⟩
  · simp only [ne_eq, not_true_eq_false, if_false, hknown]
    exact .fail _ _

theorem backslash_numeral (n : Numeral) (hc : c.rest = 'k' :: '<' :: (n.digits ++ '>' :: rest)) :
    Answers (fun a l => ∃ pos, a = (l, ⟨pos, rest⟩)) (c.backslash e (.spaced spaces))
      ((Token.reference n).leaf? e.table.contains) := by
  have hbackslash : c.backslash e (.spaced spaces) = referenceOrChar e (.spaced spaces) c := by
    rw [backslash, hc]
    rfl
  have hleaf : (Token.reference n).leaf? e.table.contains =
      (n.value? >>= fun number => if e.table.contains number then some number else none) >>= fun number =>
        some (.ref number) := by
    simp only [Token.leaf?, bind_assoc]
    refine bind_congr fun number => ?_
    cases e.table.contains number <;> rfl
  rw [hbackslash, hleaf]
  apply (reference?_numeral e.table n hc).bind
  rintro _ number ⟨pos, rfl⟩
  exact .ok ⟨pos, rfl⟩

/-- **An escape is read for what it stands for.** -/
theorem backslash_token {t : Token} {text : List Char} (ht : t.text = '\\' :: text) (hc : c.rest = text ++ rest) :
    Answers (fun a l => ∃ pos, a = (l, ⟨pos, rest⟩)) (c.backslash e (.spaced spaces))
      (t.leaf? e.table.contains) := by
  cases t with
  | literal ch =>
    cases hch : Token.escaped ch with
    | true =>
      rw [Token.text, if_pos hch] at ht
      cases ht
      rw [backslash_escaped hch hc]
      exact .ok ⟨_, rfl⟩
    | false =>
      rw [Token.text, if_neg (by simp [hch])] at ht
      cases ht
      cases hch
  | assertion a letter h =>
    cases ht
    have hread : c.backslash e (.spaced spaces) = _ := backslash_assertion e h hc
    rw [hread]
    exact .ok ⟨_, rfl⟩
  | reference n =>
    cases ht
    exact backslash_numeral n (by simpa using hc)
  | _ => cases ht

end Cursor

/-! ### Where tokens begin -/

namespace Token

/-- A literal character that is written as it is. -/
def isPlain : Token → Bool
  | literal c => !escaped c
  | _ => false

/-- The character that a token begins with. -/
def first : Token → Char
  | literal c => if escaped c then '\\' else c
  | bracket _ _ _ => '['
  | assertion _ _ _ => '\\'
  | reference _ => '\\'
  | opener _ => '('
  | bar => '|'
  | close => ')'
  | count _ _ => '\x7b'
  | star => '*'
  | plus => '+'
  | mark => '?'

variable {t : Token} {rest : List Char}

theorem exists_text (t : Token) : ∃ cs, t.text = t.first :: cs := by
  cases t with
  | literal c => cases h : escaped c <;> simp [text, first, h]
  | _ => exact ⟨_, rfl⟩

theorem escaped_eq_false {c : Char} (h : escaped c = false) :
    Cursor.isSpecial c = false ∧ Cursor.isSpace c = false ∧ c ≠ '#' := by
  simpa [escaped, and_assoc] using h

/-- No token begins with a blank, and all but plain literals begin with a special character. -/
theorem first_cases (t : Token) :
    Cursor.isSpecial t.first = !t.isPlain ∧ Cursor.isSpace t.first = false ∧ t.first ≠ '#' := by
  cases t with
  | literal c =>
    cases h : escaped c with
    | true =>
      rw [first, if_pos h, isPlain, h]
      decide
    | false => simpa [first, isPlain, h] using escaped_eq_false h
  | _ => exact ⟨rfl, rfl, by simp [first]⟩

theorem isQuantifier_first (t : Token) : Cursor.isQuantifier t.first = t.isQuantifier := by
  cases t with
  | literal c =>
    cases h : escaped c with
    | true =>
      rw [first, if_pos h]
      rfl
    | false =>
      rw [first, if_neg (by simp [h])]
      exact Cursor.not_isQuantifier (escaped_eq_false h).1
  | _ => rfl

theorem eq_opener_of_first (h : t.first = '(') : ∃ o, t = opener o := by
  cases t with
  | literal c =>
    cases hc : escaped c with
    | true => simp [first, hc] at h
    | false =>
      rw [first, if_neg (by simp [hc])] at h
      rw [h] at hc
      cases hc
  | opener o => exact ⟨o, rfl⟩
  | _ => simp [first] at h

theorem isQuantifier_of_isMark (h : t.isMark = true) : t.isQuantifier = true := by
  cases t with
  | mark => rfl
  | _ => cases h

theorem isQuantifier_of_isPlain (t : Token) (h : t.isPlain = true) : t.isQuantifier = false := by
  cases t with
  | literal c => rfl
  | _ => cases h

theorem isMark_of_first (h : t.first = '?') : t.isMark = true := by
  have hquantifier := t.isQuantifier_first
  rw [h] at hquantifier
  cases t with
  | mark => rfl
  | count | star | plus => cases h
  | _ => cases hquantifier

theorem startsQuantifier_of_first {ch : Char} (h : Cursor.isQuantifier ch = false) (rest : List Char) :
    Cursor.startsQuantifier (ch :: rest) = false := by
  have hbrace : ch ≠ '\x7b' := fun heq => by rw [heq] at h; cases h
  rw [Cursor.startsQuantifier, h]
  simpa using hbrace

/-- A token begins with a quantifier if it is one. -/
theorem startsQuantifier_text (t : Token) (rest : List Char) :
    Cursor.startsQuantifier (t.text ++ rest) = t.isQuantifier := by
  cases ht : t.isQuantifier with
  | false =>
    obtain ⟨cs, htext⟩ := t.exists_text
    rw [htext]
    exact startsQuantifier_of_first (t.isQuantifier_first.trans ht) (cs ++ rest)
  | true =>
    cases t with
    | count min max =>
      have hcount := Cursor.startsCount_written min max rest
      simpa [text, Cursor.startsQuantifier] using hcount
    | star | plus | mark => rfl
    | _ => cases ht

/-- A token may follow another one, unless it is a quantifier on a parenthesis. -/
def MayFollow (t u : Token) : Prop := t.isOpener = true → u.isQuantifier = false

instance : DecidableRel MayFollow := fun t u => inferInstanceAs (Decidable (t.isOpener = true → u.isQuantifier = false))

end Token

/-! ### Runs of literal characters -/

namespace Cursor

variable {c : Cursor} {spaces : Bool} {rest : List Char}

theorem literalRunFrom_plain (spaces : Bool) {ch : Char} (hch : Token.escaped ch = false) (rest : List Char) :
    literalRunFrom spaces (ch :: rest) = ch :: literalRunFrom spaces rest := by
  obtain ⟨hspecial, hspace, hhash⟩ := Token.escaped_eq_false hch
  have hends : endsRun spaces ch rest = false := by simp [endsRun, hspecial, hspace, hhash]
  rw [literalRunFrom, hends, if_neg Bool.false_ne_true]

theorem literalRunFrom_token (spaces : Bool) {t : Token} (ht : t.isPlain = false) (rest : List Char) :
    literalRunFrom spaces (t.text ++ rest) = [] := by
  obtain ⟨cs, htext⟩ := t.exists_text
  obtain ⟨hspecial, _⟩ := t.first_cases
  -- A brace is no literal here, because it begins a count.
  have hbrace : (t.first == '\x7b' && !startsCount (cs ++ rest)) = false := by
    by_cases heq : t.first = '\x7b'
    · have hstarts : startsQuantifier (t.text ++ rest) = isQuantifier t.first := by
        rw [t.startsQuantifier_text, t.isQuantifier_first]
      rw [htext, heq] at hstarts
      have hcount : startsCount (cs ++ rest) = true := hstarts
      simp [hcount]
    · simp [heq]
  rw [htext, List.cons_append, literalRunFrom, endsRun, hspecial, ht, hbrace]
  rfl

/-- A run of literal characters ends at a blank. -/
theorem literalRunFrom_gap {g : List Filler} (hg : gap spaces g ≠ []) (rest : List Char) :
    literalRunFrom spaces (gap spaces g ++ rest) = [] := by
  cases spaces with
  | false => exact absurd rfl hg
  | true =>
    cases g with
    | nil => exact absurd rfl hg
    | cons f g =>
      show literalRunFrom true (f.text ++ g.flatMap Filler.text ++ rest) = []
      cases f with
      | space ch h =>
        have hbrace : ch ≠ '\x7b' := fun heq => by rw [heq] at h; cases h
        simp [Filler.text, literalRunFrom, endsRun, h, hbrace]
      | line | paren => rfl

/-- A run of literal characters ends between two tokens. -/
theorem literalRunFrom_spread (spaces : Bool) (ts : List (Token × List Filler)) :
    ∃ g ts', spread spaces ts = literalRunFrom spaces (spread spaces ts) ++ (gap spaces g ++ spread spaces ts') ∧
      ts.map Prod.fst = (literalRunFrom spaces (spread spaces ts)).map Token.literal ++ ts'.map Prod.fst := by
  induction ts with
  | nil => exact ⟨[], [], by simp [spread, literalRunFrom, gap]⟩
  | cons tg ts ih =>
    obtain ⟨t, g⟩ := tg
    rw [spread_cons]
    cases ht : t.isPlain with
    | false =>
      rw [literalRunFrom_token spaces ht]
      exact ⟨[], (t, g) :: ts, by rw [List.nil_append, gap_nil, spread_cons], rfl⟩
    | true =>
      cases t with
      | literal ch =>
        have hch : Token.escaped ch = false := by simpa [Token.isPlain] using ht
        rw [Token.text, if_neg (by simp [hch]), List.singleton_append, literalRunFrom_plain spaces hch]
        by_cases hg : gap spaces g = []
        · obtain ⟨g', ts', htext, htokens⟩ := ih
          rw [hg, List.nil_append]
          exact ⟨g', ts', by rw [List.cons_append, ← htext], by simp [htokens]⟩
        · rw [literalRunFrom_gap hg]
          exact ⟨g, ts, rfl, rfl⟩
      | _ => cases ht

/-- **A run of literal characters is read up to a place between two tokens.** -/
theorem literalRun_spread {ts : List (Token × List Filler)} (hc : c.rest = spread spaces ts) :
    ∃ run g ts', c.literalRun (.spaced spaces) = (run, ⟨c.pos + run.length, gap spaces g ++ spread spaces ts'⟩) ∧
      ts.map Prod.fst = run.map Token.literal ++ ts'.map Prod.fst := by
  obtain ⟨g, ts', htext, htokens⟩ := literalRunFrom_spread spaces ts
  refine ⟨_, g, ts', ?_, htokens⟩
  show (literalRunFrom spaces c.rest, c.drop (literalRunFrom spaces c.rest).length) = _
  rw [hc, drop, hc]
  generalize literalRunFrom spaces (spread spaces ts) = run at htext
  rw [htext, List.drop_left]

/-! ### Between tokens -/

/-- After an opening parenthesis there is no question mark of a quantifier. -/
theorem head_ne_mark {o : Opener} {ts : List (Token × List Filler)} (g : List Filler)
    (hts : (Token.opener o :: ts.map Prod.fst).IsChain Token.MayFollow) :
    (gap spaces g ++ spread spaces ts).head? ≠ some '?' := by
  by_cases hg : gap spaces g = []
  · rw [hg, List.nil_append]
    cases ts with
    | nil => simp [spread]
    | cons tg ts =>
      obtain ⟨hfirst, _⟩ := List.isChain_cons_cons.mp hts
      obtain ⟨cs, htext⟩ := tg.1.exists_text
      have hquantifier := tg.1.isQuantifier_first.trans (hfirst rfl)
      simp only [spread, List.flatMap_cons, htext, List.cons_append, List.head?_cons, ne_eq, Option.some.injEq]
      intro heq
      rw [heq] at hquantifier
      cases hquantifier
  · cases spaces with
    | false => exact absurd rfl hg
    | true =>
      cases g with
      | nil => exact absurd rfl hg
      | cons f g =>
        cases f with
        | space ch h =>
          have hne : ch ≠ '?' := fun heq => by rw [heq] at h; cases h
          simpa [gap, Filler.text] using hne
        | line text h | paren text h => simp [gap, Filler.text]

theorem skipBlanksFrom_spread {ts : List (Token × List Filler)} (hts : (ts.map Prod.fst).IsChain Token.MayFollow)
    (pos : Nat) : skipBlanksFrom spaces .between pos (spread spaces ts) = .ok ⟨pos, spread spaces ts⟩ := by
  cases ts with
  | nil => rfl
  | cons tg ts =>
    obtain ⟨t, g⟩ := tg
    obtain ⟨cs, htext⟩ := t.exists_text
    obtain ⟨_, hspace, hhash⟩ := t.first_cases
    have hspread : spread spaces ((t, g) :: ts) = t.first :: (cs ++ (gap spaces g ++ spread spaces ts)) := by
      rw [spread_cons, htext, List.cons_append]
    have hparen : ¬ (t.first == '(' && (cs ++ (gap spaces g ++ spread spaces ts)).take 2 == ['?', '#']) = true := by
      intro h
      rw [Bool.and_eq_true, beq_iff_eq, beq_iff_eq] at h
      obtain ⟨o, rfl⟩ := Token.eq_opener_of_first h.1
      cases htext
      cases o with
      | capture =>
        have hhead : (gap spaces g ++ spread spaces ts).head? = some '?' := by
          simpa [Opener.mark, List.head?_take] using congrArg List.head? h.2
        exact head_ne_mark g hts hhead
      | _ => cases h.2
    rw [hspread, skipBlanksFrom, if_neg (by simp [hspace]), if_neg (by simp [hhash]), if_neg hparen]

/-- **What is between two tokens is skipped, and no more.** -/
theorem skipBlanks_spread {g : List Filler} {ts : List (Token × List Filler)}
    (hts : (ts.map Prod.fst).IsChain Token.MayFollow) (hc : c.rest = gap spaces g ++ spread spaces ts) :
    ∃ pos, c.skipBlanks (.spaced spaces) = .ok ⟨pos, spread spaces ts⟩ := by
  refine ⟨c.pos + (gap spaces g).length, ?_⟩
  show skipBlanksFrom spaces .between c.pos c.rest = _
  rw [hc, skipBlanksFrom_gap, skipBlanksFrom_spread hts]

end Cursor

end PatternCompiler
