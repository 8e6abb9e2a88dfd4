import Mathlib.Data.List.TakeWhile
import Storyworld.Text.Blank

namespace Storyworld.Text

/-!
# What blanks and separators do to a text

Blanks around a text are trimmed away (`Padded.trimChars`), and parts that are joined by a separator
which none of them holds are found again where the text is cut at it (`splitAt_intercalate`). What
follows an opening (`Opens`) or stands on both sides of a mark (`CutAt`) is said without the
functions that look for them. The lemmas with `append_return` in their names say how little of a
line depends on the carriage return that may stand before the line feed.
-/

/-- Nothing but blanks. -/
def Blank (cs : List Char) : Prop := ∀ c ∈ cs, isBlank c = true

instance (cs : List Char) : Decidable (Blank cs) :=
  decidable_of_iff (cs.all isBlank = true) List.all_eq_true

/-- The characters `padded` are `cs` with blanks around them, or without. -/
def Padded (cs padded : List Char) : Prop :=
  ∃ before after, Blank before ∧ Blank after ∧ padded = before ++ cs ++ after

variable {cs before after : List Char} {c x : Char}

theorem isBlank_return : isBlank '\r' = true := by decide

theorem blank_return : Blank ['\r'] := by
  intro c hc
  rw [List.mem_singleton.1 hc]
  exact isBlank_return

/-- A text in which a character is not blank is not blank. -/
theorem not_blank_cons (h : isBlank c = false) (cs : List Char) : ¬ Blank (c :: cs) := by
  intro hblank
  rw [hblank c List.mem_cons_self] at h
  cases h

theorem Blank.of_append (h : Blank (before ++ after)) : Blank before :=
  fun c hc => h c (List.mem_append_left after hc)

/-- What is blank with blanks around it is blank without them. -/
theorem Padded.of_blank {padded : List Char} (h : Padded cs padded) (hblank : Blank padded) :
    Blank cs := by
  obtain ⟨before, after, -, -, rfl⟩ := h
  exact fun c hc => hblank c (List.mem_append_left after (List.mem_append_right before hc))

/-! ### Trimming -/

theorem trimStart_blank_append (h : Blank before) : trimStart (before ++ cs) = trimStart cs :=
  List.dropWhile_append_of_pos h

/-- Nothing is left at the start exactly where there are only blanks. -/
theorem trimStart_eq_nil_iff : trimStart cs = [] ↔ Blank cs := List.dropWhile_eq_nil_iff

theorem trimEnd_append_blank (h : Blank after) : trimEnd (cs ++ after) = trimEnd cs := by
  unfold trimEnd
  rw [List.reverse_append,
    List.dropWhile_append_of_pos fun c hc => h c (List.mem_reverse.1 hc)]

/-- Blanks at the end are trimmed away, also when only blanks are left then. -/
theorem trimChars_append_blank (h : Blank after) : trimChars (cs ++ after) = trimChars cs := by
  unfold trimChars
  by_cases hcs : Blank cs
  · rw [trimStart_blank_append hcs, trimStart_eq_nil_iff.2 hcs, trimStart_eq_nil_iff.2 h]
  · have hne : ¬ (trimStart cs).isEmpty = true := by
      rwa [List.isEmpty_iff, trimStart_eq_nil_iff]
    have hstart : trimStart (cs ++ after) = trimStart cs ++ after := by
      unfold trimStart at hne ⊢
      rw [List.dropWhile_append, if_neg hne]
    rw [hstart, trimEnd_append_blank h]

/-- Blanks around a text are trimmed away. -/
theorem Padded.trimChars {padded : List Char} (h : Padded cs padded) :
    trimChars padded = Text.trimChars cs := by
  obtain ⟨before, after, hbefore, hafter, rfl⟩ := h
  rw [trimChars_append_blank hafter]
  unfold Text.trimChars
  rw [trimStart_blank_append hbefore]

/-- Padding brings no characters but blanks. -/
theorem Padded.not_mem {padded : List Char} (h : Padded cs padded) (hx : isBlank x = false)
    (hcs : x ∉ cs) : x ∉ padded := by
  obtain ⟨before, after, hbefore, hafter, rfl⟩ := h
  rw [List.mem_append, List.mem_append]
  rintro ((hmem | hmem) | hmem)
  · rw [hbefore x hmem] at hx
    cases hx
  · exact hcs hmem
  · rw [hafter x hmem] at hx
    cases hx

/-! ### Cutting -/

variable {separator : Char → Bool}

/-- A separator ends a part, and any other character belongs to the part that it begins. -/
theorem splitAt_cons (separator : Char → Bool) (c : Char) (cs : List Char) :
    splitAt separator (c :: cs) =
      if separator c then [] :: splitAt separator cs
      else (splitAt separator cs).modifyHead (c :: ·) := by
  cases h : splitAt separator cs with
  | nil => exact absurd h (splitAt_ne_nil separator cs)
  | cons part parts => rw [splitAt, h]; rfl

/-- A text without a separator is cut into one part. -/
theorem splitAt_of_not_separator (h : ∀ c ∈ cs, separator c = false) :
    splitAt separator cs = [cs] := by
  induction cs with
  | nil => rfl
  | cons c cs ih =>
    obtain ⟨hc, hcs⟩ := List.forall_mem_cons.1 h
    rw [splitAt_cons, hc, ih hcs]
    rfl

/-- The first separator ends the first part. -/
theorem splitAt_append_separator (h : ∀ c ∈ cs, separator c = false) (hx : separator x = true)
    (rest : List Char) : splitAt separator (cs ++ x :: rest) = cs :: splitAt separator rest := by
  induction cs with
  | nil => rw [List.nil_append, splitAt_cons, if_pos hx]
  | cons c cs ih =>
    obtain ⟨hc, hcs⟩ := List.forall_mem_cons.1 h
    rw [List.cons_append, splitAt_cons, hc, ih hcs]
    rfl

/-- Parts without the separator are found again between the separators that join them. -/
theorem splitAt_intercalate {parts : List (List Char)} (hne : parts ≠ [])
    (h : ∀ part ∈ parts, x ∉ part) : splitAt (· == x) ([x].intercalate parts) = parts := by
  -- no part has the separator, so each is taken up to the separator behind it
  have apart : ∀ part ∈ parts, ∀ c ∈ part, (c == x) = false := fun part hpart c hc =>
    beq_eq_false_iff_ne.2 fun hcx => h part hpart (hcx ▸ hc)
  induction parts with
  | nil => exact absurd rfl hne
  | cons part parts ih =>
    obtain ⟨hpart, hparts⟩ := List.forall_mem_cons.1 apart
    cases parts with
    | nil => rw [List.intercalate_singleton, splitAt_of_not_separator hpart]
    | cons next parts =>
      rw [List.intercalate_cons_cons, List.append_assoc, List.singleton_append,
        splitAt_append_separator hpart (beq_self_eq_true x),
        ih (List.cons_ne_nil _ _) (fun p hp => h p (List.mem_cons_of_mem _ hp)) hparts]

/-- Parts that are joined to blanks are blanks, the first of them among others. -/
theorem Blank.of_intercalate {part : List Char} {parts : List (List Char)}
    (h : Blank ([x].intercalate (part :: parts))) : Blank part := by
  cases parts with
  | nil => rwa [List.intercalate_singleton] at h
  | cons next parts =>
    rw [List.intercalate_cons_cons, List.append_assoc] at h
    exact h.of_append

/-- Characters at the end that are no separators belong to the last part. -/
theorem splitAt_append (h : ∀ c ∈ after, separator c = false) (cs : List Char) :
    ∃ parts last, splitAt separator cs = parts ++ [last] ∧
      splitAt separator (cs ++ after) = parts ++ [last ++ after] := by
  induction cs with
  | nil => exact ⟨[], [], rfl, splitAt_of_not_separator h⟩
  | cons c cs ih =>
    obtain ⟨parts, last, hcs, hafter⟩ := ih
    rw [List.cons_append, splitAt_cons, splitAt_cons, hcs, hafter]
    -- a separator begins a part, any other character joins the part that follows
    by_cases hc : separator c = true
    · exact ⟨[] :: parts, last, by rw [if_pos hc]; rfl, by rw [if_pos hc]; rfl⟩
    · rw [if_neg hc, if_neg hc]
      cases parts with
      | nil => exact ⟨[], c :: last, rfl, rfl⟩
      | cons part parts => exact ⟨(c :: part) :: parts, last, rfl, rfl⟩

/-! ### Words -/

/-- A separator parts what stands before it from what comes after it. -/
theorem splitAt_append_cons (hx : separator x = true) (cs rest : List Char) :
    splitAt separator (cs ++ x :: rest) = splitAt separator cs ++ splitAt separator rest := by
  induction cs with
  | nil => rw [List.nil_append, splitAt_cons, if_pos hx, splitAt, List.singleton_append]
  | cons c cs ih =>
    rw [List.cons_append, splitAt_cons, splitAt_cons, ih]
    split
    · rfl
    · obtain ⟨part, parts, hparts⟩ := List.exists_cons_of_ne_nil (splitAt_ne_nil separator cs)
      rw [hparts]
      rfl

/-- Words do not reach across a blank. -/
theorem wordsOf_append_blank_cons (hx : isBlank x = true) (cs rest : List Char) :
    wordsOf (cs ++ x :: rest) = wordsOf cs ++ wordsOf rest := by
  unfold wordsOf
  rw [splitAt_append_cons hx, List.filter_append, List.map_append]

/-- Blanks before a text add no words. -/
theorem Blank.wordsOf_append (h : Blank before) (cs : List Char) :
    wordsOf (before ++ cs) = wordsOf cs := by
  induction before with
  | nil => rfl
  | cons c before ih =>
    obtain ⟨hc, hbefore⟩ := List.forall_mem_cons.1 h
    rw [List.cons_append, ← List.nil_append (c :: (before ++ cs)), wordsOf_append_blank_cons hc,
      ih hbefore]
    rfl

/-- Blanks after a text add no words. -/
theorem wordsOf_append_blank (h : Blank after) (cs : List Char) :
    wordsOf (cs ++ after) = wordsOf cs := by
  cases after with
  | nil => rw [List.append_nil]
  | cons c after =>
    obtain ⟨hc, hafter⟩ := List.forall_mem_cons.1 h
    have hnone : wordsOf after = [] := by
      rw [← List.append_nil after, Blank.wordsOf_append hafter]
      rfl
    rw [wordsOf_append_blank_cons hc, hnone, List.append_nil]

/-- Blanks around a text are no words of it. -/
theorem Padded.wordsOf {padded : List Char} (h : Padded cs padded) :
    wordsOf padded = Text.wordsOf cs := by
  obtain ⟨before, after, hbefore, hafter, rfl⟩ := h
  rw [wordsOf_append_blank hafter, hbefore.wordsOf_append]

/-- What is trimmed away are blanks. -/
theorem padded_trimChars (cs : List Char) : Padded (trimChars cs) cs := by
  have hstart : cs = cs.takeWhile isBlank ++ trimStart cs := List.takeWhile_append_dropWhile.symm
  have hend : ∀ ds : List Char, ds = trimEnd ds ++ (ds.reverse.takeWhile isBlank).reverse := by
    intro ds
    unfold trimEnd
    rw [← List.reverse_append, List.takeWhile_append_dropWhile, List.reverse_reverse]
  refine ⟨cs.takeWhile isBlank, ((trimStart cs).reverse.takeWhile isBlank).reverse, ?_, ?_, ?_⟩
  · exact fun c hc => List.mem_takeWhile_imp hc
  · exact fun c hc => List.mem_takeWhile_imp (List.mem_reverse.1 hc)
  · rw [List.append_assoc]
    unfold trimChars
    rw [← hend]
    exact hstart

/-- A text that begins with a character that is no blank begins with a word that does. -/
theorem wordsOf_cons (h : isBlank c = false) (cs : List Char) :
    ∃ w ws, wordsOf (c :: cs) = String.ofList (c :: w) :: ws := by
  obtain ⟨part, parts, hparts⟩ := List.exists_cons_of_ne_nil (splitAt_ne_nil isBlank cs)
  have hcut : splitAt isBlank (c :: cs) = (c :: part) :: parts := by
    rw [splitAt_cons, h, hparts]
    rfl
  refine ⟨part, (parts.filter (!·.isEmpty)).map String.ofList, ?_⟩
  unfold wordsOf
  rw [hcut]
  rfl

/-- The text is a single word, or empty: there is no blank in it. -/
def Unbroken (s : String) : Prop := ∀ c ∈ s.toList, isBlank c = false

instance (s : String) : Decidable (Unbroken s) :=
  inferInstanceAs (Decidable (∀ c ∈ s.toList, isBlank c = false))

/-- There is no blank in a word. -/
theorem unbroken_of_mem_wordsOf {w : String} (h : w ∈ wordsOf cs) :
    Unbroken w := by
  obtain ⟨part, hpart, rfl⟩ := List.mem_map.1 h
  intro c hc
  rw [String.toList_ofList] at hc
  exact not_separator_of_mem_splitAt (List.mem_filter.1 hpart).1 hc

/-- Where two texts are joined by a comma and a blank, the first of them can be told if there is no
blank in it. -/
theorem Unbroken.pair_inj {l l' r r' : String} (hl : Unbroken l) (hl' : Unbroken l')
    (h : l ++ ", " ++ r = l' ++ ", " ++ r') : l = l' ∧ r = r' := by
  have hshape : ∀ l r : String, (l ++ ", " ++ r).toList =
      (l.toList ++ [',']) ++ ' ' :: r.toList := by
    intro l r
    rw [String.toList_append, String.toList_append, List.append_assoc, List.append_assoc]
    rfl
  have hword : ∀ {l : String}, Unbroken l → ∀ c ∈ l.toList ++ [','], isBlank c = false := by
    intro l hl c hc
    rcases List.mem_append.1 hc with hc | hc
    · exact hl c hc
    · rw [List.mem_singleton.1 hc]
      decide
  have hchars := congrArg String.toList h
  rw [hshape, hshape] at hchars
  -- both are cut at the first blank
  have hcut := congrArg (splitAt isBlank) hchars
  rw [splitAt_append_separator (hword hl) (by decide),
    splitAt_append_separator (hword hl') (by decide)] at hcut
  have hfirst := (List.cons.inj hcut).1
  rw [hfirst] at hchars
  have hrest := List.append_cancel_left hchars
  exact ⟨String.toList_inj.1 (List.append_cancel_right hfirst),
    String.toList_inj.1 (List.cons.inj hrest).2⟩

/-! ### Openings -/

/-- What begins with another letter does not begin with the opening. -/
theorem afterOpening?_eq_none {opening : String} {o : Char} {os : List Char}
    (hopening : opening.toList = o :: os) (h : c.toLower ≠ o.toLower) (cs : List Char) :
    afterOpening? opening (c :: cs) = none := by
  unfold afterOpening?
  rw [hopening]
  exact if_neg fun heq => h (List.cons.inj heq).1

/-- The characters begin with the opening, its letters in either case, and go on with the rest. -/
def Opens (opening : String) (cs rest : List Char) : Prop :=
  ∃ front, cs = front ++ rest ∧ front.map Char.toLower = opening.toList.map Char.toLower

/-- Characters open with what they begin with. -/
theorem opens_take_drop {opening : String}
    (h : (cs.take opening.toList.length).map Char.toLower = opening.toList.map Char.toLower) :
    Opens opening cs (cs.drop opening.toList.length) :=
  ⟨_, (List.take_append_drop _ cs).symm, h⟩

/-- What is given after an opening is what the characters go on with, without the blanks around
it. -/
theorem afterOpening?_eq_some_iff {opening : String} :
    afterOpening? opening cs = some after ↔
      ∃ rest, Opens opening cs rest ∧ trimChars rest = after := by
  unfold afterOpening?
  dsimp only
  constructor
  · intro h
    split at h
    · rename_i heq
      exact ⟨_, opens_take_drop heq, Option.some.inj h⟩
    · cases h
  · rintro ⟨rest, ⟨front, rfl, hfront⟩, rfl⟩
    -- the front is as long as the opening, so it is what was taken
    have hlength : opening.toList.length = front.length := by
      simpa using (congrArg List.length hfront).symm
    rw [hlength, List.take_left, List.drop_left, if_pos hfront]

/-- Nothing is given where the characters do not begin with the opening. -/
theorem afterOpening?_eq_none_iff {opening : String} :
    afterOpening? opening cs = none ↔ ∀ rest, ¬ Opens opening cs rest := by
  constructor
  · intro h rest hopens
    rw [afterOpening?_eq_some_iff.2 ⟨rest, hopens, rfl⟩] at h
    cases h
  · intro h
    exact if_neg fun heq => h _ (opens_take_drop heq)

/-- The first letter of an opening is there in one of its cases. -/
theorem Opens.head?_eq {opening : String} {rest : List Char} (h : Opens opening cs rest)
    (hne : opening.toList ≠ []) :
    cs.head?.map Char.toLower = opening.toList.head?.map Char.toLower := by
  obtain ⟨front, rfl, hfront⟩ := h
  cases front with
  | nil => exact absurd (List.map_eq_nil_iff.1 hfront.symm) hne
  | cons c front =>
    show some c.toLower = _
    rw [← List.head?_map, ← hfront]
    rfl

/-- Of two openings with different first letters only one can be there. -/
theorem Opens.afterOpening?_eq_none {opening opening' : String} {rest : List Char}
    (h : Opens opening cs rest) (hne : opening.toList ≠ []) (hne' : opening'.toList ≠ [])
    (hletter : opening.toList.head?.map Char.toLower ≠ opening'.toList.head?.map Char.toLower) :
    afterOpening? opening' cs = none :=
  afterOpening?_eq_none_iff.2 fun _ h' => hletter ((h.head?_eq hne).symm.trans (h'.head?_eq hne'))

/-- No blank is a letter, so none matches a letter in the other case. -/
theorem toLower_of_isBlank (h : isBlank c = true) : c.toLower = c := by
  have hbeside : ∀ r ∈ blankRanges, r.2 < 'A'.toNat ∨ 'Z'.toNat < r.1 := by decide
  unfold Char.toLower
  rw [dif_neg]
  intro hletter
  have hnone : isBlank c = false := Ranges.holds_eq_false_of_beside hbeside hletter.1 hletter.2
  rw [hnone] at h
  cases h

/-! ### Marks -/

/-- The mark stands between the two parts, and nowhere sooner. -/
def CutAt (mark cs before after : List Char) : Prop :=
  cs = before ++ (mark ++ after) ∧
    ∀ before' after', cs = before' ++ (mark ++ after') → before.length ≤ before'.length

/-- Past a character at which the mark does not stand, characters are cut where they were. -/
theorem cutAt_cons_iff {mark : List Char} (h : ¬ mark <+: c :: cs) :
    CutAt mark (c :: cs) before after ↔
      ∃ before', before = c :: before' ∧ CutAt mark cs before' after := by
  constructor
  · rintro ⟨heq, hfirst⟩
    cases before with
    -- the mark does not stand right here, so something stands before it
    | nil => exact absurd ⟨after, heq.symm⟩ h
    | cons d before =>
      obtain ⟨rfl, rfl⟩ := List.cons.inj heq
      refine ⟨before, rfl, rfl, fun before' after' he => ?_⟩
      exact Nat.le_of_succ_le_succ (hfirst (c :: before') after' (congrArg (c :: ·) he))
  · rintro ⟨before, rfl, rfl, hfirst⟩
    refine ⟨rfl, fun before' after' he => ?_⟩
    cases before' with
    | nil => exact absurd ⟨after', he.symm⟩ h
    | cons d before' => exact Nat.succ_le_succ (hfirst before' after' (List.cons.inj he).2)

/-- Where the mark stands at once, there is nothing before it. -/
theorem cutAt_append_iff {mark rest : List Char} :
    CutAt mark (mark ++ rest) before after ↔ before = [] ∧ after = rest := by
  constructor
  · rintro ⟨heq, hfirst⟩
    obtain rfl := List.eq_nil_of_length_eq_zero (Nat.le_zero.1 (hfirst [] rest rfl))
    exact ⟨rfl, (List.append_cancel_left heq).symm⟩
  · rintro ⟨rfl, rfl⟩
    exact ⟨rfl, fun _ _ _ => Nat.zero_le _⟩

/-- Characters are split at the first place where the mark stands. -/
theorem splitOnce_eq_some_iff {mark : List Char} :
    splitOnce mark cs = some (before, after) ↔ CutAt mark cs before after := by
  induction cs generalizing before with
  | nil =>
    rw [splitOnce]
    cases mark with
    | nil =>
      have hcut : CutAt [] [] before after ↔ before = [] ∧ after = [] :=
        cutAt_append_iff
      rw [if_pos (by rfl), hcut, Option.some_inj, Prod.mk.injEq, eq_comm, @eq_comm _ after]
    | cons m mark =>
      rw [if_neg (by exact nofun)]
      refine iff_of_false nofun fun h => ?_
      have hlength := congrArg List.length h.1
      simp at hlength
  | cons c cs ih =>
    rw [splitOnce]
    -- the mark stands here, or the place is looked for further on
    by_cases hmark : mark <+: c :: cs
    · obtain ⟨rest, hrest⟩ := hmark
      rw [if_pos (List.isPrefixOf_iff_prefix.2 ⟨rest, hrest⟩), ← hrest, List.drop_left,
        cutAt_append_iff, Option.some_inj, Prod.mk.injEq, eq_comm, @eq_comm _ after]
    · rw [if_neg (fun h => hmark (List.isPrefixOf_iff_prefix.1 h)), cutAt_cons_iff hmark,
        Option.map_eq_some_iff]
      constructor
      · rintro ⟨⟨before', after'⟩, hsplit, he⟩
        cases he
        exact ⟨before', rfl, ih.1 hsplit⟩
      · rintro ⟨before', rfl, hcut⟩
        exact ⟨_, ih.2 hcut, rfl⟩

/-- Characters are not split where the mark stands nowhere. -/
theorem splitOnce_eq_none_iff {mark : List Char} : splitOnce mark cs = none ↔ ¬ mark <:+: cs := by
  induction cs with
  | nil => simp [splitOnce]
  | cons c cs ih =>
    rw [splitOnce, List.infix_cons_iff, not_or, ← ih, ← List.isPrefixOf_iff_prefix]
    split
    · rename_i hmark
      exact iff_of_false nofun fun h => h.1 hmark
    · rename_i hmark
      rw [Option.map_eq_none_iff]
      exact (and_iff_right hmark).symm

/-! ### Carriage returns -/

/-- A line loses a carriage return at its end, if there is one. -/
theorem withoutReturn_cases (cs : List Char) :
    withoutReturn cs = cs ∨ cs = withoutReturn cs ++ ['\r'] := by
  unfold withoutReturn
  split
  · rename_i h
    obtain ⟨line, rfl⟩ := List.getLast?_eq_some_iff.1 h
    exact Or.inr (by rw [List.dropLast_concat])
  · exact Or.inl rfl

/-- A carriage return at the end does not make a line begin otherwise. -/
theorem isPrefixOf_append_return {mark : List Char} (h : '\r' ∉ mark) (cs : List Char) :
    mark.isPrefixOf (cs ++ ['\r']) = mark.isPrefixOf cs := by
  rw [Bool.eq_iff_iff, List.isPrefixOf_iff_prefix, List.isPrefixOf_iff_prefix,
    List.prefix_concat_iff, or_iff_right]
  rintro rfl
  exact h (List.mem_append_right _ List.mem_cons_self)

/-- A line is as blank with a carriage return at its end as without. -/
theorem isEmpty_trimStart_append_return (cs : List Char) :
    (trimStart (cs ++ ['\r'])).isEmpty = (trimStart cs).isEmpty := by
  rw [Bool.eq_iff_iff, List.isEmpty_iff, List.isEmpty_iff, trimStart_eq_nil_iff,
    trimStart_eq_nil_iff]
  exact ⟨fun h c hc => h c (List.mem_append_left _ hc),
    fun h => List.forall_mem_append.2 ⟨h, blank_return⟩⟩

/-- What follows an opening is the same with a carriage return, which is trimmed away. -/
theorem afterOpening?_append_return {opening : String}
    (h : '\r' ∉ opening.toList.map Char.toLower) (cs : List Char) :
    afterOpening? opening (cs ++ ['\r']) = afterOpening? opening cs := by
  unfold afterOpening?
  dsimp only
  by_cases hlength : opening.toList.length ≤ cs.length
  · rw [List.take_append_of_le_length hlength, List.drop_append_of_le_length hlength,
      trimChars_append_blank blank_return]
  · -- the opening is longer than the line, and does not end in the carriage return
    rw [if_neg fun heq => ?_, if_neg fun heq => ?_]
    · refine hlength ?_
      have hlengths := congrArg List.length heq
      rw [List.length_map, List.length_map, List.length_take] at hlengths
      omega
    · have hreturn : (cs ++ ['\r']).length ≤ opening.toList.length := by
        rw [List.length_append, List.length_singleton]
        omega
      rw [List.take_of_length_le hreturn] at heq
      exact h (heq ▸ List.mem_map.2 ⟨'\r', List.mem_append_right _ List.mem_cons_self, rfl⟩)

/-- A carriage return at the end belongs to what stands after the mark. -/
theorem splitOnce_append_return {mark : List Char} (hne : mark ≠ []) (h : '\r' ∉ mark)
    (cs : List Char) :
    splitOnce mark (cs ++ ['\r']) =
      (splitOnce mark cs).map fun parts => (parts.1, parts.2 ++ ['\r']) := by
  have hnil : splitOnce mark [] = none := by
    rw [splitOnce, if_neg (by rwa [List.isEmpty_iff])]
  induction cs with
  | nil =>
    -- the carriage return alone is no mark
    have hprefix : ¬ mark.isPrefixOf ['\r'] = true := by
      have hreturn := isPrefixOf_append_return h []
      rw [List.nil_append] at hreturn
      rwa [hreturn, List.isPrefixOf_iff_prefix, List.prefix_nil]
    rw [hnil, List.nil_append, splitOnce, if_neg hprefix, hnil]
    rfl
  | cons c cs ih =>
    have hprefix := isPrefixOf_append_return h (c :: cs)
    rw [List.cons_append] at hprefix
    rw [List.cons_append, splitOnce, splitOnce, hprefix]
    split
    · rename_i hmark
      have hlength := (List.isPrefixOf_iff_prefix.1 hmark).length_le
      rw [← List.cons_append, List.drop_append_of_le_length hlength]
      rfl
    · rw [ih, Option.map_map, Option.map_map]
      rfl

end Storyworld.Text
