import PatternCompiler.Proofs.InBounds

/-! Where a class in brackets ends.

The survey looks for the end of a bracket with a counter and two switches, without
reading the class. A subtraction opens a level for the reader where a bracket after a
dash does for the survey. `Aligned` says when the two look at a character in the same
way, and `levelFrom_skips` that one stays beside the other up to the end of a level.

They part at six short texts, `bracketTroubles`. If what the reader takes is clear of them,
whatever follows, the survey ends at the same place (`skipBracket_eq_bracket`); each of the
six is enough for another end (`skipBracket_ne_bracket`). `bracket_skips` is for a pattern
that is clear as a whole. -/
namespace PatternCompiler.Cursor

/-! ### Clear brackets -/

/-- What the survey takes for something else than the reader does: a control character that is
written with a mark, and a dash that is a member of the class although a bracket follows. -/
def bracketTroubles : List (List Char) :=
  [['\\', 'c', ']'], ['\\', 'c', '\\'], ['\\', 'c', '[', ':'], ['[', '-', '['], ['[', '^', '-', '['],
    ['-', '-', '[']]

def BracketClear (cs : List Char) : Prop := ∀ t ∈ bracketTroubles, ¬ t <:+: cs

instance (cs : List Char) : Decidable (BracketClear cs) :=
  inferInstanceAs (Decidable (∀ t ∈ bracketTroubles, ¬ t <:+: cs))

/-- What comes before the end `tail` is clear. -/
def ClearTo (tail cs : List Char) : Prop := ∀ taken, cs = taken ++ tail → BracketClear taken

theorem ClearTo.of_suffix {tail cs cs' : List Char} (h : ClearTo tail cs) (hs : cs' <:+ cs) : ClearTo tail cs' := by
  rintro taken rfl
  obtain ⟨before, rfl⟩ := hs
  intro t ht hi
  exact h (before ++ taken) (List.append_assoc ..).symm t ht (hi.trans (List.suffix_append _ _).isInfix)

theorem not_clearTo_append {tail t rest : List Char} (ht : t ∈ bracketTroubles) (hrest : tail <:+ rest) :
    ¬ ClearTo tail (t ++ rest) := by
  obtain ⟨taken, rfl⟩ := hrest
  intro h
  exact h (t ++ taken) (List.append_assoc ..).symm t ht (List.prefix_append t taken).isInfix

/-- Each of these texts has a troublesome one in it. -/
theorem clearTo_of_clear {cs : List Char} (h : Clear cs) (tail : List Char) : ClearTo tail cs := by
  rintro taken rfl t ht hi
  have hmore : ∀ t ∈ bracketTroubles, ∃ t' ∈ troubles, t' <:+: t := by decide
  obtain ⟨t', ht', hinside⟩ := hmore t ht
  exact h t' ht' ((hinside.trans hi).trans (List.prefix_append taken tail).isInfix)

theorem Beyond.suffix_tail {c c' : Cursor} (h : Beyond c c') : c'.rest <:+ c.rest.tail := by
  have hlt := h.length_lt
  cases hc : c.rest with
  | nil =>
    rw [hc] at hlt
    cases hlt
  | cons ch rest => exact h.suffix hc

/-! ### The survey's way -/

/-- The survey goes from `c` to the end of the bracket, which is at `out`. -/
def SkipsTo (depth : Nat) (first dash : Bool) (c out : Cursor) : Prop :=
  ∀ rounds, c.rest.length < rounds → skipBracketFrom rounds depth first dash c = .ok out

variable {depth depth' : Nat} {first first' dash dash' : Bool} {c c' next out : Cursor} {ch : Char}
  {rest tail : List Char} {m : BracketMode} {pending : Option Char} {rounds : Nat} {k : CharClass}

theorem SkipsTo.of_round (hc : c.rest = ch :: rest) (hnext : next.rest <:+ rest)
    (heq : ∀ rounds, skipBracketFrom (rounds + 1) depth first dash c =
      skipBracketFrom rounds depth' first' dash' next)
    (h : SkipsTo depth' first' dash' next out) : SkipsTo depth first dash c out := by
  intro rounds hrounds
  have hlen := hnext.length_le
  rw [hc, List.length_cons] at hrounds
  obtain ⟨k, rfl⟩ : ∃ k, rounds = k + 1 := ⟨rounds - 1, by omega⟩
  rw [heq]
  exact h k (by omega)

theorem skipsTo_close (hc : c.rest = ']' :: rest) : SkipsTo 0 false dash c ⟨c.pos + 1, rest⟩ := by
  intro rounds hrounds
  obtain ⟨k, rfl⟩ : ∃ k, rounds = k + 1 := ⟨rounds - 1, by omega⟩
  rw [skipBracketFrom, hc]
  rfl

theorem SkipsTo.close (hc : c.rest = ']' :: rest) (h : SkipsTo depth false false ⟨c.pos + 1, rest⟩ out) :
    SkipsTo (depth + 1) false dash c out :=
  h.of_round hc (List.suffix_refl rest) fun rounds => by rw [skipBracketFrom, hc]; rfl

theorem SkipsTo.escape (hc : c.rest = '\\' :: rest)
    (h : SkipsTo depth false false (skipOne ⟨c.pos + 1, rest⟩) out) : SkipsTo depth first dash c out :=
  h.of_round hc (skipOne_ahead _).suffix fun rounds => by rw [skipBracketFrom, hc]; rfl

theorem SkipsTo.minus (hc : c.rest = '-' :: rest) (h : SkipsTo depth false true ⟨c.pos + 1, rest⟩ out) :
    SkipsTo depth first dash c out :=
  h.of_round hc (List.suffix_refl rest) fun rounds => by rw [skipBracketFrom, hc]; rfl

theorem SkipsTo.inner (hc : c.rest = '[' :: rest)
    (h : SkipsTo (depth + 1) true false (skipChar ⟨c.pos + 1, rest⟩ '^') out) :
    SkipsTo depth first true c out :=
  h.of_round hc (skipChar_ahead _ _).suffix fun rounds => by rw [skipBracketFrom, hc]; rfl

theorem SkipsTo.posixName (hc : c.rest = '[' :: rest)
    (h : SkipsTo depth false false (skipPosixName ⟨c.pos + 1, rest⟩) out) :
    SkipsTo depth first false c out :=
  h.of_round hc (skipPosixName_ahead _).suffix fun rounds => by rw [skipBracketFrom, hc]; rfl

theorem SkipsTo.other (hc : c.rest = ch :: rest) (hclose : ch = ']' → first = true)
    (hch : ch ≠ '\\' ∧ ch ≠ '-' ∧ ch ≠ '[') (h : SkipsTo depth false false ⟨c.pos + 1, rest⟩ out) :
    SkipsTo depth first dash c out := by
  refine h.of_round hc (List.suffix_refl rest) fun rounds => ?_
  have hend : ¬ (ch = ']' ∧ first = false) := fun hend => by
    have := hclose hend.1
    rw [hend.2] at this
    cases this
  rw [skipBracketFrom, hc]
  simp only [if_neg hend, if_neg hch.1, if_neg hch.2.1, if_neg hch.2.2]

theorem SkipsTo.plain (hc : c.rest = ch :: rest) (hch : Plain ch)
    (h : SkipsTo depth false false ⟨c.pos + 1, rest⟩ out) : SkipsTo depth first dash c out :=
  h.other hc (fun heq => absurd heq (hch.ne_mark (by decide)))
    ⟨hch.ne_mark (by decide), hch.ne_mark (by decide), hch.ne_mark (by decide)⟩

theorem SkipsTo.passes (hp : Passes Plain c c') (h : SkipsTo depth false false c' out) :
    SkipsTo depth false false c out :=
  hp.backward (motive := fun c => SkipsTo depth false false c out) h
    fun _ _ _ hc hch h => h.plain hc hch

theorem SkipsTo.passesOrDash (hp : Passes PlainOrDash c c')
    (h : ∀ dash, SkipsTo depth false dash c' out) : ∀ dash, SkipsTo depth false dash c out := by
  refine hp.backward (motive := fun c => ∀ dash, SkipsTo depth false dash c out) h ?_
  rintro c ch rest hc (hch | rfl) h dash
  · exact (h false).plain hc hch
  · exact (h true).minus hc

/-! ### Members -/

/-- Once the survey is past a member, it goes on from `next` as it went on from `c`. -/
def Leads (first dash : Bool) (c : Cursor) (dash' : Bool) (next : Cursor) : Prop :=
  ∀ depth out, SkipsTo depth false dash' next out → SkipsTo depth first dash c out

/-- How the survey takes what the reader takes for a member. A control character that is written as a
bracket only is one for both if the class does not end there. -/
def Member.Fits (tail : List Char) (first dash : Bool) (pending : Option Char) (c next : Cursor) : Member → Prop
  | .close => first = false ∧ c.rest = ']' :: next.rest ∧ next = ⟨c.pos + 1, next.rest⟩
  | .done _ pending' => pending' = none ∧ Leads first dash c false next
  | .char d escaped =>
    (d = '[' ∧ escaped = false ∧ pending.isSome = true ∧ c.rest = '[' :: next.rest ∧
        next = ⟨c.pos + 1, next.rest⟩) ∨
      (d = '-' ∧ escaped = false ∧ c.rest = '-' :: next.rest ∧ Leads first dash c true next) ∨
      ((d = '-' → escaped = true) ∧ (pending.isSome = true → d = '[' → escaped = true) ∧
        (tail <:+ next.rest.tail → Leads first dash c false next))

/-- The two readers look at the next character in the same way: the survey has a dash behind it
where the reader has begun a range, and no bracket follows where only the survey has. -/
structure Aligned (tail : List Char) (pending : Option Char) (first dash : Bool) (c : Cursor) : Prop where
  clear : ClearTo tail c.rest
  ofFirst : first = true → pending = none ∧ dash = false
  ofPending : pending.isSome = true → dash = true
  noBracket : pending = none → dash = true → c.rest.head? ≠ some '['
  noDash : first = true ∨ pending.isSome = true → ∀ rest, c.rest = '-' :: '[' :: rest → ¬ tail <:+ rest

theorem skipPosixName_of_head (h : c.rest.head? ≠ some ':') : c.skipPosixName = c := by
  unfold skipPosixName
  split
  · rename_i hrest
    rw [hrest] at h
    exact absurd rfl h
  · rfl

/-- The survey passes over an escaped character as the reader does. -/
theorem charEscape_leads {ecma : Bool} {d e : Char} (hc : c.rest = '\\' :: e :: rest)
    (hclear : ClearTo tail c.rest) (h : charEscape ⟨c.pos + 1, e :: rest⟩ ecma = .ok (d, next))
    (htail : tail <:+ next.rest.tail) : Leads first dash c false next := by
  obtain ⟨e', rest', hrest', hpass⟩ | ⟨e', rest', hrest', rfl, htrouble⟩ := charEscape_cases h
  · cases hrest'
    exact fun depth out h => .escape hc (h.passes hpass)
  · cases hrest'
    rw [hc] at hclear
    have htail' : tail <:+ rest' := htail.trans (List.tail_suffix _)
    have hmarks : ∀ t ∈ troubles, t ∈ bracketTroubles ∨ t = ['\\', 'c', '['] := by decide
    rcases hmarks _ htrouble with hmem | heq
    · exact absurd hclear (not_clearTo_append hmem htail')
    · cases heq
      -- The bracket is one of the class for the survey too, unless it begins a name.
      have hname : rest'.head? ≠ some ':' := fun hhead => by
        obtain ⟨rest'', rfl⟩ := List.head?_eq_some_iff.mp hhead
        exact not_clearTo_append (t := ['\\', 'c', '[', ':']) (by decide) htail hclear
      refine fun depth out h => .escape hc (.posixName rfl ?_)
      rwa [skipPosixName_of_head hname]

theorem bracketEscape_fits {level : CharClass.Level}
    {found : Member} {e : Char} {rest : List Char} (hc : c.rest = '\\' :: e :: rest)
    (hclear : ClearTo tail c.rest)
    (h : bracketEscape m level pending ⟨c.pos + 1, e :: rest⟩ e ⟨c.pos + 1 + 1, rest⟩ = .ok (found, next)) :
    next.rest <:+ c.rest ∧ found.Fits tail first dash pending c next := by
  have hlead : Passes Plain ⟨c.pos + 1 + 1, rest⟩ next → Leads first dash c false next :=
    fun hp depth out h => .escape hc (h.passes hp)
  have hsuffix : ∀ {next : Cursor}, next.rest <:+ rest → next.rest <:+ c.rest := by
    intro next hs
    rw [hc]
    exact hs.trans ((List.suffix_cons e rest).trans (List.suffix_cons _ _))
  unfold bracketEscape at h
  split at h
  · split at h
    · cases h
    · cases h
      exact ⟨hsuffix (List.suffix_refl rest), rfl, hlead (.refl _)⟩
  split at h
  · split at h
    · cases h
    · obtain ⟨⟨k, c₁⟩, hk, h⟩ := exists_ok_of_bind h
      cases h
      obtain ⟨c₂, rest', hpass, hrest', rfl⟩ := category_passes hk
      refine ⟨hsuffix ?_, rfl, fun depth out h => .escape hc ?_⟩
      · exact (by rw [hrest']; exact List.suffix_cons _ _ : rest' <:+ c₂.rest).trans hpass.suffix
      · exact SkipsTo.passesOrDash hpass (fun _ => .plain hrest' (by decide) h) false
  split at h
  · split at h
    · obtain ⟨level', _, h⟩ := exists_ok_of_bind h
      cases h
      exact ⟨hsuffix (List.suffix_refl rest), rfl, hlead (.refl _)⟩
    · cases h
      exact ⟨hsuffix (List.suffix_refl rest), rfl, hlead (.refl _)⟩
  · obtain ⟨⟨d, c₁⟩, hd, h⟩ := exists_ok_of_bind h
    cases h
    have hahead : Ahead ⟨c.pos + 1, e :: rest⟩ next := (charEscape_keeps _ _).of_ok hd
    refine ⟨?_, .inr (.inr ⟨fun _ => rfl, fun _ _ => rfl, charEscape_leads hc hclear hd⟩)⟩
    rw [hc]
    exact hahead.suffix.trans (List.suffix_cons _ _)

theorem member_fits {level : CharClass.Level} {found : Member}
    (ha : Aligned tail pending first dash c) (hc : c.rest = ch :: rest)
    (h : member m level pending first ch ⟨c.pos + 1, rest⟩ = .ok (found, next)) :
    next.rest <:+ c.rest ∧ found.Fits tail first dash pending c next := by
  have hrest : rest <:+ c.rest := by
    rw [hc]
    exact List.suffix_cons ch rest
  unfold member at h
  split at h
  · rename_i hch
    subst hch
    cases h
    cases first with
    | true =>
      refine ⟨hrest, .inr (.inr ⟨fun hd => absurd hd (by decide), fun _ hd => absurd hd (by decide), ?_⟩)⟩
      exact fun _ depth out h => .other hc (fun _ => rfl) (by decide) h
    | false => exact ⟨hrest, rfl, hc, rfl⟩
  split at h
  · rename_i hch
    subst hch
    split at h
    · rename_i hnil
      cases h
      dsimp only at hnil
      subst hnil
      refine ⟨hrest, .inr (.inr ⟨fun hd => absurd hd (by decide), fun _ hd => absurd hd (by decide), ?_⟩)⟩
      exact fun _ depth out h => .escape hc h
    · rename_i e rest' hrest'
      dsimp only at hrest'
      subst hrest'
      exact bracketEscape_fits hc ha.clear h
  split at h
  · rename_i hch
    obtain ⟨rfl, hpending⟩ := hch
    cases h
    have hdash : dash = false := by
      cases dash with
      | false => rfl
      | true => exact absurd (by rw [hc]; rfl) (ha.noBracket hpending rfl)
    subst hdash
    refine ⟨(skipPosixName_ahead _).suffix.trans hrest, .inr (.inr ⟨fun hd => absurd hd (by decide), ?_, ?_⟩)⟩
    · rw [hpending]
      exact nofun
    · exact fun _ depth out h => .posixName hc h
  · rename_i hclose hback hopen
    cases h
    refine ⟨hrest, ?_⟩
    by_cases hdash : ch = '-'
    · rw [hdash] at hc
      exact .inr (.inl ⟨hdash, rfl, hc, fun depth out h => .minus hc h⟩)
    by_cases hbracket : ch = '['
    · have hpending : pending.isSome = true := by
        cases pending with
        | none => exact absurd ⟨hbracket, rfl⟩ hopen
        | some lo => rfl
      exact .inl ⟨hbracket, rfl, hpending, hbracket ▸ hc, rfl⟩
    · refine .inr (.inr ⟨fun hd => absurd hd hdash, fun _ hd => absurd hd hbracket, fun _ depth out h => ?_⟩)
      exact .other hc (fun heq => absurd heq hclose) ⟨hback, hdash, hbracket⟩ h

/-! ### Levels -/

/-- What the survey has before it when the reader is past a level, inside `depth` further ones. -/
def After : LevelEnd → Nat → Cursor → Cursor → Prop
  | .closed, 0, c, out => c = out
  | .closed, depth + 1, c, out => SkipsTo depth false false c out
  | .subtraction, depth, c, out => SkipsTo (depth + 1) true false (c.skipChar '^') out

theorem skipsTo_of_after_closed (hc : c.rest = ']' :: next.rest) (hnext : next = ⟨c.pos + 1, next.rest⟩)
    (h : After .closed depth next out) : SkipsTo depth false dash c out := by
  cases depth with
  | zero =>
    cases h
    rw [hnext]
    exact skipsTo_close hc
  | succ depth =>
    rw [hnext] at h
    exact SkipsTo.close hc h

theorem skipOne_cons (hc : c.rest = ch :: rest) : c.skipOne = ⟨c.pos + 1, rest⟩ := by
  rw [skipOne, hc]

theorem startsRange_eq {cs : List Char} (h : startsRange cs = true) : ∃ rest, cs = '-' :: rest := by
  unfold startsRange at h
  split at h
  · exact ⟨_, rfl⟩
  · cases h

theorem aligned_next {dash' : Bool} (hclear : ClearTo tail next.rest)
    (hdash : dash' = true → next.rest.head? ≠ some '[') : Aligned tail none false dash' next :=
  ⟨hclear, nofun, nofun, fun _ => hdash, fun h => by rcases h with h | h <;> cases h⟩

theorem aligned_range {lo : Char} (hclear : ClearTo tail ('-' :: next.rest)) :
    Aligned tail (some lo) false true next := by
  refine ⟨hclear.of_suffix (List.suffix_cons _ _), nofun, fun _ => rfl, nofun, fun _ rest hrest htail => ?_⟩
  rw [hrest] at hclear
  exact not_clearTo_append (t := ['-', '-', '[']) (by decide) htail hclear

/-- But for the bracket of a subtraction, the survey is past a character when the reader is. -/
theorem Member.Fits.leads {d : Char} {escaped : Bool}
    (h : (Member.char d escaped).Fits tail first dash pending c next)
    (hsub : ¬ (pending.isSome = true ∧ d = '[' ∧ escaped = false)) :
    ∃ dash', (tail <:+ next.rest.tail → Leads first dash c dash' next) ∧ (dash' = true ↔ d = '-' ∧ escaped = false) ∧
      (dash' = true → c.rest = '-' :: next.rest) := by
  rcases h with ⟨hd, hesc, hpending, _⟩ | ⟨hd, hesc, hc, hleads⟩ | ⟨hd, _, hleads⟩
  · exact absurd ⟨hpending, hd, hesc⟩ hsub
  · exact ⟨true, fun _ => hleads, ⟨fun _ => ⟨hd, hesc⟩, fun _ => rfl⟩, fun _ => hc⟩
  · refine ⟨false, hleads, ⟨nofun, fun h => ?_⟩, nofun⟩
    rw [hd h.1] at h
    cases h.2

/-- A dash at which the reader cannot begin a subtraction has no bracket after it. -/
theorem Aligned.head_ne (ha : Aligned tail pending first dash c)
    (hwhere : first = true ∨ pending.isSome = true) (hdash : c.rest = '-' :: next.rest)
    (hbeyond : tail <:+ next.rest.tail) : next.rest.head? ≠ some '[' := by
  intro hhead
  obtain ⟨rest, hrest⟩ := List.head?_eq_some_iff.mp hhead
  rw [hrest] at hdash hbeyond
  exact ha.noDash hwhere rest hdash hbeyond

/-- From `c` the survey comes to where the reader is past its level, at `c'`. -/
structure Follows (tail : List Char) (first dash : Bool) (c c' : Cursor) (stop : LevelEnd) : Prop where
  clear : stop = .subtraction → ClearTo tail ('[' :: c'.rest)
  skips : ∀ depth out, After stop depth c' out → SkipsTo depth first dash c out

section Follows

variable {dash' : Bool} {stop : LevelEnd}

theorem Follows.of_leads (h : Follows tail false dash' next c' stop) (hleads : Leads first dash c dash' next) :
    Follows tail first dash c c' stop :=
  ⟨h.clear, fun depth out hafter => hleads depth out (h.skips depth out hafter)⟩

theorem follows_close (hfits : Member.close.Fits tail first dash none c next) :
    Follows tail first dash c next .closed := by
  obtain ⟨rfl, hclose, hnext⟩ := hfits
  exact ⟨by rintro ⟨⟩, fun depth out hafter => skipsTo_of_after_closed hclose hnext hafter⟩

/-- A character that a range may begin with, and the dash after it. -/
theorem follows_range (hleads : Leads first dash c dash' next) (hrest : next.rest = '-' :: rest)
    (h : Follows tail false true ⟨next.pos + 1, rest⟩ c' stop) : Follows tail first dash c c' stop :=
  ⟨h.clear, fun depth out hafter => hleads depth out (.minus hrest (h.skips depth out hafter))⟩

/-- The bracket of a subtraction where the end of a range could stand. -/
theorem follows_pending {lo : Char} (ha : Aligned tail (some lo) first dash c)
    (hfits : (Member.char '[' false).Fits tail first dash (some lo) c next) :
    Follows tail first dash c next .subtraction := by
  rcases hfits with ⟨_, _, _, hc, hnext⟩ | ⟨hd, _⟩ | ⟨_, hesc, _⟩
  · refine ⟨fun _ => hc ▸ ha.clear, fun depth out hafter => ?_⟩
    rw [ha.ofPending rfl]
    rw [hnext] at hafter
    exact SkipsTo.inner hc hafter
  · exact absurd hd (by decide)
  · cases hesc rfl rfl

/-- The bracket of a subtraction after a dash by itself. -/
theorem follows_dash (hleads : Leads first dash c true next) (hrest : next.rest = '[' :: rest)
    (hclear : ClearTo tail next.rest) : Follows tail first dash c ⟨next.pos + 1, rest⟩ .subtraction :=
  ⟨fun _ => hrest ▸ hclear, fun depth out hafter => hleads depth out (.inner hrest hafter)⟩

end Follows

/-- The survey stays beside the reader up to the end of a level, which is not beyond `tail`. -/
theorem levelFrom_skips {level level' : CharClass.Level}
    {stop : LevelEnd} (ha : Aligned tail pending first dash c)
    (h : levelFrom m rounds level pending first c = .ok (level', stop, c')) (htail : tail <:+ c'.rest) :
    Follows tail first dash c c' stop := by
  induction rounds generalizing level pending first dash c with
  | zero => cases h
  | succ rounds ih =>
    rw [levelFrom] at h
    split at h
    · cases h
    rename_i ch rest hc
    obtain ⟨⟨found, next⟩, hmember, h⟩ := exists_ok_of_bind h
    obtain ⟨hsuffix, hfits⟩ := member_fits ha hc hmember
    have hclear : ClearTo tail next.rest := ha.clear.of_suffix hsuffix
    have hahead : ∀ {level : CharClass.Level} {pending' : Option Char},
        levelFrom m rounds level pending' false next = .ok (level', stop, c') → tail <:+ next.rest.tail :=
      fun h => htail.trans ((levelFrom_keeps ..).of_ok h : Beyond next c').suffix_tail
    dsimp only at h
    split at h
    · cases h
      exact follows_close hfits
    · obtain ⟨rfl, hleads⟩ := hfits
      exact (ih (aligned_next hclear (by rintro ⟨⟩)) h).of_leads hleads
    · rename_i d escaped
      split at h
      · rename_i lo
        split at h
        · rename_i hopen
          obtain ⟨rfl, rfl, _⟩ := hopen
          cases h
          exact follows_pending ha hfits
        · rename_i hopen
          have hfirst : first = false := by
            cases first with
            | false => rfl
            | true => cases (ha.ofFirst rfl).1
          obtain ⟨level₁, _, h⟩ := exists_ok_of_bind h
          obtain ⟨dash', hleads, _, hdash⟩ := hfits.leads fun hsub => hopen ⟨hsub.2.1, hsub.2.2, hfirst⟩
          have halign : Aligned tail none false dash' next :=
            aligned_next hclear fun htrue => ha.head_ne (.inr rfl) (hdash htrue) (hahead h)
          exact (ih halign h).of_leads (hleads (hahead h))
      · obtain ⟨dash', hleads, hiff, hdash⟩ := hfits.leads fun hsub => by cases hsub.1
        split at h
        · rename_i hstarts
          obtain ⟨rest', hrest'⟩ := startsRange_eq hstarts
          rw [skipOne_cons hrest'] at h
          rw [hrest'] at hleads hclear
          have hbeyond : Beyond ⟨next.pos + 1, rest'⟩ c' := (levelFrom_keeps ..).of_ok h
          exact follows_range (hleads (htail.trans hbeyond.ahead.suffix)) hrest' (ih (aligned_range hclear) h)
        split at h
        · rename_i hminus
          obtain ⟨hd, hesc, _, hhead⟩ := hminus
          cases h
          obtain ⟨rest', hrest'⟩ := List.head?_eq_some_iff.mp hhead
          rw [skipOne_cons hrest'] at htail ⊢
          rw [hiff.mpr ⟨hd, hesc⟩, hrest'] at hleads
          exact follows_dash (hleads htail) hrest' hclear
        · rename_i hminus
          refine (ih (aligned_next hclear fun htrue => ?_) h).of_leads (hleads (hahead h))
          cases hfirst : first with
          | true => exact ha.head_ne (.inl hfirst) (hdash htrue) (hahead h)
          | false => exact fun hhead => hminus ⟨(hiff.mp htrue).1, (hiff.mp htrue).2, hfirst, hhead⟩

/-! ### Whole brackets -/

theorem aligned_start (hclear : ClearTo tail ('[' :: c.rest)) : Aligned tail none true false (c.skipChar '^') := by
  refine ⟨hclear.of_suffix ((skipChar_ahead c '^').suffix.trans (List.suffix_cons _ _)), fun _ => ⟨rfl, rfl⟩, nofun,
    nofun, fun _ rest hrest htail => ?_⟩
  unfold skipChar at hrest
  split at hrest
  · rename_i hnil
    rw [hnil] at hrest
    cases hrest
  rename_i d rest' hd
  split at hrest
  · rename_i hcaret
    dsimp only at hrest
    rw [hd, hcaret, hrest] at hclear
    exact not_clearTo_append (t := ['[', '^', '-', '[']) (by decide) htail hclear
  · rw [hrest] at hclear
    exact not_clearTo_append (t := ['[', '-', '[']) (by decide) htail hclear

theorem level_skips {l : CharClass.Level} {stop : LevelEnd}
    (hclear : ClearTo tail ('[' :: c.rest)) (h : level m c = .ok (l, stop, c')) (htail : tail <:+ c'.rest) :
    Follows tail true false (c.skipChar '^') c' stop := by
  obtain ⟨⟨l₁, stop₁, c₁⟩, hlevel, h⟩ := exists_ok_of_bind h
  cases h
  exact levelFrom_skips (aligned_start hclear) hlevel htail

theorem levelsFrom_pos {ls : List CharClass.Level}
    (h : levelsFrom m rounds c = .ok (ls, c')) : 0 < ls.length := by
  cases rounds with
  | zero => cases h
  | succ rounds =>
    obtain ⟨⟨l, stop, c₁⟩, _, h⟩ := exists_ok_of_bind h
    dsimp only at h
    split at h
    · cases h
      exact Nat.one_pos
    · obtain ⟨_, _, h⟩ := exists_ok_of_bind h
      cases h
      exact Nat.succ_pos _

theorem levelsFrom_skips {ls : List CharClass.Level}
    (hclear : ClearTo tail ('[' :: c.rest)) (h : levelsFrom m rounds c = .ok (ls, c')) (htail : tail <:+ c'.rest)
    (depth : Nat) (hafter : After .closed (depth + (ls.length - 1)) c' out) :
    SkipsTo depth true false (c.skipChar '^') out := by
  induction rounds generalizing c ls depth with
  | zero => cases h
  | succ rounds ih =>
    obtain ⟨⟨l, stop, c₁⟩, hlevel, h⟩ := exists_ok_of_bind h
    dsimp only at h
    split at h
    · cases h
      exact (level_skips hclear hlevel htail).skips depth out hafter
    · obtain ⟨⟨inner, c₂⟩, hinner, h⟩ := exists_ok_of_bind h
      cases h
      have hahead : Ahead c₁ c₂ := (levelsFrom_keeps ..).of_ok hinner
      obtain ⟨hsub, hskips⟩ := level_skips hclear hlevel (htail.trans hahead.suffix)
      -- A level is inside the one before it, so its own levels close one deeper.
      refine hskips depth out (ih (hsub rfl) hinner (depth + 1) ?_)
      have hpos := levelsFrom_pos hinner
      have hdepth : depth + 1 + (inner.length - 1) = depth + ((l :: inner).length - 1) := by
        rw [List.length_cons]
        omega
      rw [hdepth]
      exact hafter

theorem closeLevels_after {count : Nat} (h : closeLevels count c = .ok out) : After .closed count c out := by
  induction count generalizing c with
  | zero => exact Except.ok.inj h
  | succ count ih =>
    rw [closeLevels] at h
    split at h
    · cases h
    · exact skipsTo_of_after_closed ‹_› rfl (ih h)
    · cases h

theorem closeLevels_suffix {count : Nat} (h : closeLevels count c = .ok out) : out.rest <:+ c.rest :=
  ((closeLevels_keeps count c).of_ok h : Ahead c out).suffix

/-- If the text is clear up to an end that the reader does not go beyond, the survey ends where the
reader does. -/
theorem bracket_skips_clearTo (hclear : ClearTo tail ('[' :: c.rest))
    (h : c.bracket m = .ok (k, c')) (htail : tail <:+ c'.rest) : c.skipBracket = .ok c' := by
  obtain ⟨⟨ls, c₁⟩, hlevels, h⟩ := exists_ok_of_bind h
  obtain ⟨c₂, hclose, h⟩ := exists_ok_of_bind h
  cases h
  have hafter : After .closed (0 + (ls.length - 1)) c₁ c' := by
    rw [Nat.zero_add]
    exact closeLevels_after hclose
  exact levelsFrom_skips hclear hlevels (htail.trans (closeLevels_suffix hclose)) 0 hafter _ (Nat.lt_succ_self _)

/-- In a clear text the survey finds the end of a bracket where the reader does. -/
theorem bracket_skips (hclear : Clear ('[' :: c.rest))
    (h : c.bracket m = .ok (k, c')) : c.skipBracket = .ok c' :=
  bracket_skips_clearTo (clearTo_of_clear hclear []) h List.nil_suffix

/-- The characters from a cursor up to one ahead of it. -/
def taken (c c' : Cursor) : List Char := c.rest.take (c.rest.length - c'.rest.length)

theorem taken_append (h : Ahead c c') : c.taken c' ++ c'.rest = c.rest := by
  obtain ⟨run, -, hrest, -⟩ := h
  rw [taken, hrest, List.length_append, Nat.add_sub_cancel, List.take_left]

/-- **The survey finds the end of a bracket where the reader does**, if the class is clear, whatever
follows it and whatever the mode of the reader is. -/
theorem skipBracket_eq_bracket {m : BracketMode} {k : CharClass} (h : c.bracket m = .ok (k, c'))
    (hclear : BracketClear ('[' :: c.taken c')) : c.skipBracket = .ok c' := by
  refine bracket_skips_clearTo (fun taken htaken => ?_) h (List.suffix_refl _)
  have hahead : Ahead c c' := (bracket_keeps m c).of_ok h
  rw [← taken_append hahead, ← List.cons_append] at htaken
  rwa [← List.append_cancel_right htaken]

/-- Three levels, with brackets as members in five ways, and a text behind them that is not clear. -/
theorem skipBracket_eq_bracket_nested :
    BracketClear "[]\\c[\\]-~[:a:]-[^b-[]c]]]".toList ∧
      ∃ k, bracket ⟨true, false, .invariant⟩ ⟨1, "]\\c[\\]-~[:a:]-[^b-[]c]]](--[)".toList⟩ =
          .ok (k, ⟨25, "(--[)".toList⟩) ∧
        skipBracket ⟨1, "]\\c[\\]-~[:a:]-[^b-[]c]]](--[)".toList⟩ = .ok ⟨25, "(--[)".toList⟩ := by
  obtain ⟨⟨k, c'⟩, h, hcheck⟩ := exists_ok_of_check
    (bracket ⟨true, false, .invariant⟩ ⟨1, "]\\c[\\]-~[:a:]-[^b-[]c]]](--[)".toList⟩)
    (fun a => a.2 = ⟨25, "(--[)".toList⟩) (by decide +kernel)
  obtain rfl : c' = ⟨25, "(--[)".toList⟩ := of_decide_eq_true hcheck
  exact ⟨by decide, k, h, skipBracket_eq_bracket h (by decide)⟩

/-- The reader takes the class in the text, with this trouble and no other, and the survey does not
end where the reader does. -/
def Misled (t : List Char) (text : String) : Prop :=
  ∃ k out, bracket ⟨false, false, .invariant⟩ ⟨1, text.toList⟩ = .ok (k, out) ∧
    (∀ t' ∈ bracketTroubles, t' <:+: '[' :: taken ⟨1, text.toList⟩ out ↔ t' = t) ∧
    skipBracket ⟨1, text.toList⟩ ≠ .ok out

theorem misled_of_check {t : List Char} {text : String}
    (h : (bracket ⟨false, false, .invariant⟩ ⟨1, text.toList⟩).toOption.any (fun a =>
      decide ((∀ t' ∈ bracketTroubles, t' <:+: '[' :: taken ⟨1, text.toList⟩ a.2 ↔ t' = t) ∧
        (skipBracket ⟨1, text.toList⟩).toOption ≠ some a.2)) = true) : Misled t text := by
  obtain ⟨⟨k, out⟩, hbracket, hcheck⟩ := exists_ok_of_check _ _ h
  obtain ⟨honly, hskip⟩ := of_decide_eq_true hcheck
  refine ⟨k, out, hbracket, honly, fun heq => hskip ?_⟩
  rw [heq]
  rfl

/-- None of the troubles can be left out: each by itself leads the survey astray. -/
theorem skipBracket_ne_bracket :
    Misled ['\\', 'c', ']'] "\\c](]" ∧ Misled ['\\', 'c', '\\'] "\\c\\]" ∧
      Misled ['\\', 'c', '[', ':'] "\\c[:a:]" ∧ Misled ['[', '-', '['] "-[a]" ∧
        Misled ['[', '^', '-', '['] "^-[a]" ∧ Misled ['-', '-', '['] "+--[b]" :=
  ⟨misled_of_check (by decide +kernel), misled_of_check (by decide +kernel), misled_of_check (by decide +kernel),
    misled_of_check (by decide +kernel), misled_of_check (by decide +kernel), misled_of_check (by decide +kernel)⟩

end PatternCompiler.Cursor
