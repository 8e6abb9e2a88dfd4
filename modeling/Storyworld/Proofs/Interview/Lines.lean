import Storyworld.Proofs.Interview.Questionnaire
import Storyworld.Proofs.Text.Padding

namespace Storyworld

/-!
# What a line is read as

Blanks around a phrase change nothing of what it means (`World.literal_padded`), and neither does
the carriage return that may end a line (`Questionnaire.readLine_append_return`), so a text is read
by the parts between its line feeds (`Questionnaire.readLines_lines`). The lines that open a question
or an answer are told from all others by their first two characters, and the lists of implications
by the blank in front. What all the lines are, those of constraints among them, is said by `Line.Is`
(`Questionnaire.ofChars_eq_iff`).
-/

namespace Grammar

open Text

variable {before after : List Char}

theorem marks_blank_append (h : Blank before) (cs : List Char) :
    marks (before ++ cs) = marks cs := by
  induction before with
  | nil => rfl
  | cons c before ih =>
    obtain ⟨hc, hbefore⟩ := List.forall_mem_cons.1 h
    rw [List.cons_append, marks, if_pos hc, ih hbefore]

/-- Blanks after a phrase are no marks, and are trimmed away from what the marks stand before. -/
theorem marks_append_blank (h : Blank after) (cs : List Char) :
    (marks (cs ++ after)).1 = (marks cs).1 ∧
      trimChars (marks (cs ++ after)).2 = trimChars (marks cs).2 := by
  induction cs with
  | nil =>
    -- blanks alone have no marks, and are trimmed away
    have hmarks := marks_blank_append h []
    rw [List.append_nil] at hmarks
    rw [List.nil_append, hmarks]
    exact ⟨rfl, rfl⟩
  | cons c cs ih =>
    rw [List.cons_append, marks, marks]
    split
    · exact ih
    · split
      · exact ⟨congrArg (· + 1) ih.1, ih.2⟩
      · have htrim : trimChars (c :: cs ++ after) = trimChars (c :: cs) := trimChars_append_blank h
        exact ⟨rfl, htrim⟩

/-- A phrase is read as it is without the blanks around it, also where it cannot be read. -/
theorem read_padded {phrase padded : String} (h : Padded phrase.toList padded.toList)
    (g : Grammar) :
    g.read padded = g.read phrase := by
  obtain ⟨before, after, hbefore, hafter, hpadded⟩ := h
  have hmarks := marks_append_blank hafter (before ++ phrase.toList)
  rw [← hpadded, marks_blank_append hbefore] at hmarks
  unfold read
  dsimp only
  rw [hmarks.1, hmarks.2]

end Grammar

variable {ρ : Type}

/-- Blanks around a phrase do not change what it means. -/
theorem World.literal_padded {phrase padded : String}
    (h : Text.Padded phrase.toList padded.toList) :
    World.literal (ρ := ρ) padded = World.literal phrase := by
  unfold World.literal
  simp only [Grammar.read_padded h]

namespace Questionnaire

/-- Phrases are read alike if each of them is. -/
theorem literalsOf_congr {ps qs : List String}
    (h : ps.map (World.literal (ρ := ρ)) = qs.map World.literal) :
    literalsOf (ρ := ρ) ps = literalsOf qs := by
  induction ps generalizing qs with
  | nil => rw [List.map_eq_nil_iff.1 h.symm]
  | cons p ps ih =>
    cases qs with
    | nil => cases h
    | cons q qs =>
      obtain ⟨hhead, htail⟩ := List.cons.inj h
      rw [literalsOf, literalsOf, hhead, ih htail]

/-! ### How lines end -/

theorem literals_append_return (list : String) :
    literals (ρ := ρ) (list ++ "\r") = literals list := by
  have hreturn : ∀ c ∈ ['\r'], (c == ',') = false := List.forall_mem_singleton.2 rfl
  obtain ⟨parts, last, hlist, happended⟩ := Text.splitAt_append hreturn list.toList
  refine literalsOf_congr ?_
  unfold Text.commaParts
  rw [String.toList_append, show "\r".toList = ['\r'] from rfl, hlist, happended]
  -- the carriage return is a blank after the last phrase
  have hlast : World.literal (ρ := ρ) (String.ofList (last ++ ['\r'])) =
      World.literal (String.ofList last) :=
    World.literal_padded ⟨[], ['\r'], nofun, Text.blank_return, by simp⟩
  simp only [List.map_append, List.map_cons, List.map_nil, hlast]

/-- The line that a carriage return makes of another one. -/
def Line.returned : Line → Line
  | .implications list => .implications (list ++ "\r")
  | .rule head body => .rule head (body ++ "\r")
  | .implication head body => .implication head (body ++ "\r")
  | line => line

theorem ofChars_append_return (cs : List Char) :
    Line.ofChars (cs ++ ['\r']) = (Line.ofChars cs).returned := by
  have hhead : ¬ (Text.trimStart cs).isEmpty = true → (cs ++ ['\r']).head? = cs.head? := by
    intro h
    cases cs with
    | nil => exact absurd rfl h
    | cons c cs => rfl
  unfold Line.ofChars
  rw [Text.isEmpty_trimStart_append_return, Text.isPrefixOf_append_return (by decide),
    Text.afterOpening?_append_return (by decide), Text.afterOpening?_append_return (by decide),
    Text.splitOnce_append_return (by decide) (by decide),
    Text.splitOnce_append_return (by decide) (by decide),
    Text.afterOpening?_append_return (by decide), Text.afterOpening?_append_return (by decide),
    Text.afterOpening?_append_return (by decide),
    Text.trimChars_append_blank Text.blank_return, String.ofList_append]
  split
  · rfl
  · rename_i hcontent
    -- the conditions of the line without the carriage return, in the order they are tried
    rw [hhead fun h => hcontent (by rw [h]; rfl)]
    cases Text.afterOpening? "Q:" cs
    case some => rfl
    cases Text.afterOpening? "A:" cs
    case some => rfl
    dsimp only
    split
    · rfl
    cases Text.splitOnce ['<', '='] cs
    case some => exact congrArg (Line.rule _) String.ofList_append
    cases Text.splitOnce ['<', '-'] cs
    case some => exact congrArg (Line.implication _) String.ofList_append
    cases Text.afterOpening? "contradiction:" cs
    case some => rfl
    cases Text.afterOpening? "unique:" cs
    case some => rfl
    cases Text.afterOpening? "mutually exclusive:" cs <;> rfl

/-- A carriage return at the end of a line changes nothing, whatever line it is. -/
theorem readLine_append_return (d : Draft) (cs : List Char) :
    readLine (ρ := ρ) d (String.ofList (cs ++ ['\r'])) = readLine d (String.ofList cs) := by
  unfold readLine
  rw [String.toList_ofList, String.toList_ofList, ofChars_append_return]
  cases Line.ofChars cs <;> simp only [Line.returned, literals_append_return]

/-- A text is read by the parts between its line feeds, whatever else ends its lines. -/
theorem readLines_linesOf (d : Draft) (number : Nat) (parts : List (List Char)) :
    readLines (ρ := ρ) d number ((Text.linesOf parts).map String.ofList) =
      readLines d number (parts.map String.ofList) := by
  induction parts generalizing d number with
  | nil => rfl
  | cons part parts ih =>
    cases parts with
    | nil =>
      cases part with
      -- what is left after the last line feed is no line of its own
      | nil => rfl
      | cons c cs => rfl
    | cons next parts =>
      have hline : ∀ d, readLine (ρ := ρ) d (String.ofList (Text.withoutReturn part)) =
          readLine d (String.ofList part) := by
        intro d
        rcases Text.withoutReturn_cases part with h | h
        · rw [h]
        · exact (readLine_append_return d _).symm.trans (congrArg (readLine d ∘ String.ofList) h.symm)
      rw [Text.linesOf, List.map_cons, List.map_cons, readLines, readLines, hline]
      simp only [ih]
      exact nofun

/-- Lines that are joined by line feeds are read as they are, also where the last one is empty. -/
theorem readLines_lines {lines : List String} (h : ∀ line ∈ lines, '\n' ∉ line.toList) (d : Draft)
    (number : Nat) :
    readLines (ρ := ρ) d number (Text.lines ("\n".intercalate lines)) = readLines d number lines := by
  rcases eq_or_ne lines [] with rfl | hne
  · rfl
  · have hparts : ∀ part ∈ lines.map String.toList, '\n' ∉ part := List.forall_mem_map.2 h
    unfold Text.lines
    rw [String.toList_intercalate, show "\n".toList = ['\n'] from rfl,
      Text.splitAt_intercalate (fun hnil => hne (List.map_eq_nil_iff.1 hnil)) hparts,
      readLines_linesOf, List.map_map]
    congr 1
    exact List.map_id'' (fun _ => String.ofList_toList) lines

/-! ### Lines told by how they begin -/

theorem skips_iff {cs : List Char} :
    ((Text.trimStart cs).isEmpty || ['/', '/'].isPrefixOf cs) = true ↔
      Text.Blank cs ∨ ['/', '/'] <+: cs := by
  rw [Bool.or_eq_true, List.isEmpty_iff, Text.trimStart_eq_nil_iff, List.isPrefixOf_iff_prefix]

theorem ofChars_skipped {cs : List Char} (h : Text.Blank cs ∨ ['/', '/'] <+: cs) :
    Line.ofChars cs = .skipped := by
  unfold Line.ofChars
  exact if_pos (skips_iff.2 h)

theorem not_skips {c : Char} {cs : List Char} (hblank : ¬ Text.Blank (c :: cs)) (hslash : c ≠ '/') :
    ¬ ((Text.trimStart (c :: cs)).isEmpty || ['/', '/'].isPrefixOf (c :: cs)) = true := by
  rw [skips_iff, List.cons_prefix_cons]
  rintro (h | ⟨rfl, -⟩)
  · exact hblank h
  · exact hslash rfl

/-- A line that opens with `Q:`, in either case of the letter, is a question. -/
theorem ofChars_question {c : Char} (hc : c = 'Q' ∨ c = 'q') (rest : List Char) :
    Line.ofChars (c :: ':' :: rest) = .question (String.ofList (Text.trimChars rest)) := by
  rcases hc with rfl | rfl <;>
  · unfold Line.ofChars
    rw [if_neg (not_skips (Text.not_blank_cons (by decide) _) (by decide))]
    rfl

/-- A line that opens with `A:`, in either case of the letter, is an answer. -/
theorem ofChars_answer {c : Char} (hc : c = 'A' ∨ c = 'a') (rest : List Char) :
    Line.ofChars (c :: ':' :: rest) = .answer (String.ofList (Text.trimChars rest)) := by
  rcases hc with rfl | rfl <;>
  · unfold Line.ofChars
    rw [if_neg (not_skips (Text.not_blank_cons (by decide) _) (by decide))]
    rfl

/-- An indented line that is not blank is a list of implications. -/
theorem ofChars_indented {c : Char} {cs : List Char} (hc : Text.isBlank c = true)
    (hcs : ¬ Text.Blank (c :: cs)) :
    Line.ofChars (c :: cs) = .implications (String.ofList (c :: cs)) := by
  have hslash : c ≠ '/' := by
    rintro rfl
    exact absurd hc (by decide)
  -- a blank in front is none of the letters that open a question or an answer
  have hletter : ∀ o, Text.isBlank o = false → c.toLower ≠ o := by
    rintro o ho rfl
    rw [Text.toLower_of_isBlank hc, hc] at ho
    cases ho
  unfold Line.ofChars
  rw [if_neg (not_skips hcs hslash), Text.afterOpening?_eq_none rfl (hletter 'q' (by decide)),
    Text.afterOpening?_eq_none rfl (hletter 'a' (by decide))]
  exact if_pos hc

/-! ### What a line is

The kinds of lines are tried one after the other. `Line.Is` says of each kind which lines are of it,
with the kinds before it ruled out. -/

/-- The line may be a constraint: it is not passed over, opens neither a question nor an answer, and
is not indented. -/
structure Constraining (cs : List Char) : Prop where
  read : ¬ (Text.Blank cs ∨ ['/', '/'] <+: cs)
  question : ∀ rest, ¬ Text.Opens "Q:" cs rest
  answer : ∀ rest, ¬ Text.Opens "A:" cs rest
  flush : cs.head?.any Text.isBlank = false

/-- One of the marks between a head and a body stands in the line. -/
def Arrowed (cs : List Char) : Prop := ['<', '='] <:+: cs ∨ ['<', '-'] <:+: cs

/-- What a line is. The mark of a rule goes before that of an implication, wherever they stand, and
both go before the openings. -/
inductive Line.Is (cs : List Char) : Line → Prop where
  | skipped (h : Text.Blank cs ∨ ['/', '/'] <+: cs) : Is cs .skipped
  | question {rest : List Char} (h : Text.Opens "Q:" cs rest) :
    Is cs (.question (String.ofList (Text.trimChars rest)))
  | answer {rest : List Char} (h : Text.Opens "A:" cs rest) :
    Is cs (.answer (String.ofList (Text.trimChars rest)))
  | implications (hblank : ¬ Text.Blank cs) (h : cs.head?.any Text.isBlank = true) :
    Is cs (.implications (String.ofList cs))
  | rule {head body : List Char} (hcs : Constraining cs) (h : Text.CutAt ['<', '='] cs head body) :
    Is cs (.rule (String.ofList head) (String.ofList body))
  | implication {head body : List Char} (hcs : Constraining cs) (hrule : ¬ ['<', '='] <:+: cs)
    (h : Text.CutAt ['<', '-'] cs head body) :
    Is cs (.implication (String.ofList head) (String.ofList body))
  | contradiction {rest : List Char} (hcs : Constraining cs) (harrow : ¬ Arrowed cs)
    (h : Text.Opens "contradiction:" cs rest) :
    Is cs (.contradiction (String.ofList (Text.trimChars rest)))
  | unique {rest : List Char} (hcs : Constraining cs) (harrow : ¬ Arrowed cs)
    (h : Text.Opens "unique:" cs rest) : Is cs (.unique (String.ofList (Text.trimChars rest)))
  | exclusive {rest : List Char} (hcs : Constraining cs) (harrow : ¬ Arrowed cs)
    (h : Text.Opens "mutually exclusive:" cs rest) :
    Is cs (.exclusive (String.ofList (Text.trimChars rest)))
  | unknown (hcs : Constraining cs) (harrow : ¬ Arrowed cs)
    (hopen : ∀ opening ∈ ["contradiction:", "unique:", "mutually exclusive:"],
      ∀ rest, ¬ Text.Opens opening cs rest) :
    Is cs (.unknown (String.ofList (Text.trimChars cs)))

/-- An opening with a letter in front is neither passed over nor indented. -/
theorem read_of_opens {opening : String} {o : Char} {cs rest : List Char}
    (hopening : opening.toList.head?.map Char.toLower = some o) (hblank : Text.isBlank o = false)
    (hslash : o ≠ '/') (h : Text.Opens opening cs rest) :
    ¬ (Text.Blank cs ∨ ['/', '/'] <+: cs) := by
  have hne : opening.toList ≠ [] := by
    intro hnil
    rw [hnil] at hopening
    cases hopening
  have hhead := (h.head?_eq hne).trans hopening
  cases cs with
  | nil => cases hhead
  | cons c cs =>
    have hletter : c.toLower = o := Option.some.inj hhead
    rintro (hcs | hcs)
    · -- a blank is no letter in either case
      have hc := hcs c List.mem_cons_self
      rw [← hletter, Text.toLower_of_isBlank hc, hc] at hblank
      cases hblank
    · obtain ⟨rfl, -⟩ := List.cons_prefix_cons.1 hcs
      exact hslash hletter.symm

/-- A line is what it is read as. -/
theorem is_ofChars (cs : List Char) : Line.Is cs (Line.ofChars cs) := by
  unfold Line.ofChars
  split
  · rename_i hskips
    exact .skipped (skips_iff.1 hskips)
  rename_i hread
  cases hquestion : Text.afterOpening? "Q:" cs with
  | some text =>
    obtain ⟨rest, hopens, rfl⟩ := Text.afterOpening?_eq_some_iff.1 hquestion
    exact .question hopens
  | none =>
  cases hanswer : Text.afterOpening? "A:" cs with
  | some text =>
    obtain ⟨rest, hopens, rfl⟩ := Text.afterOpening?_eq_some_iff.1 hanswer
    exact .answer hopens
  | none =>
  dsimp only
  split
  · rename_i hindented
    exact .implications (fun hblank => hread (skips_iff.2 (.inl hblank))) hindented
  rename_i hflush
  -- from here on it is a constraint, or nothing that is known
  have hcs : Constraining cs :=
    ⟨fun h => hread (skips_iff.2 h), Text.afterOpening?_eq_none_iff.1 hquestion,
      Text.afterOpening?_eq_none_iff.1 hanswer, Bool.eq_false_iff.2 hflush⟩
  cases hrule : Text.splitOnce ['<', '='] cs with
  | some parts => exact .rule hcs (Text.splitOnce_eq_some_iff.1 hrule)
  | none =>
  have hrule := Text.splitOnce_eq_none_iff.1 hrule
  cases himplication : Text.splitOnce ['<', '-'] cs with
  | some parts => exact .implication hcs hrule (Text.splitOnce_eq_some_iff.1 himplication)
  | none =>
  have harrow : ¬ Arrowed cs := not_or.2 ⟨hrule, Text.splitOnce_eq_none_iff.1 himplication⟩
  cases hcontradiction : Text.afterOpening? "contradiction:" cs with
  | some text =>
    obtain ⟨rest, hopens, rfl⟩ := Text.afterOpening?_eq_some_iff.1 hcontradiction
    exact .contradiction hcs harrow hopens
  | none =>
  cases hunique : Text.afterOpening? "unique:" cs with
  | some text =>
    obtain ⟨rest, hopens, rfl⟩ := Text.afterOpening?_eq_some_iff.1 hunique
    exact .unique hcs harrow hopens
  | none =>
  cases hexclusive : Text.afterOpening? "mutually exclusive:" cs with
  | some text =>
    obtain ⟨rest, hopens, rfl⟩ := Text.afterOpening?_eq_some_iff.1 hexclusive
    exact .exclusive hcs harrow hopens
  | none =>
    refine .unknown hcs harrow ?_
    simpa using ⟨Text.afterOpening?_eq_none_iff.1 hcontradiction,
      Text.afterOpening?_eq_none_iff.1 hunique, Text.afterOpening?_eq_none_iff.1 hexclusive⟩

/-- What may be a constraint is told by its mark first, and then by its opening. -/
theorem Constraining.ofChars_eq {cs : List Char} (hcs : Constraining cs) :
    Line.ofChars cs =
      match Text.splitOnce ['<', '='] cs, Text.splitOnce ['<', '-'] cs with
      | some (head, body), _ => .rule (String.ofList head) (String.ofList body)
      | none, some (head, body) => .implication (String.ofList head) (String.ofList body)
      | none, none =>
        match Text.afterOpening? "contradiction:" cs, Text.afterOpening? "unique:" cs,
          Text.afterOpening? "mutually exclusive:" cs with
        | some list, _, _ => .contradiction (String.ofList list)
        | none, some list, _ => .unique (String.ofList list)
        | none, none, some list => .exclusive (String.ofList list)
        | none, none, none => .unknown (String.ofList (Text.trimChars cs)) := by
  unfold Line.ofChars
  -- the line is none of those that are told by their beginning, so the order of the rest is left
  rw [if_neg (mt skips_iff.1 hcs.read), Text.afterOpening?_eq_none_iff.2 hcs.question,
    Text.afterOpening?_eq_none_iff.2 hcs.answer, hcs.flush]
  cases Text.splitOnce ['<', '='] cs <;> cases Text.splitOnce ['<', '-'] cs <;>
    cases Text.afterOpening? "contradiction:" cs <;> cases Text.afterOpening? "unique:" cs <;>
    cases Text.afterOpening? "mutually exclusive:" cs <;> rfl

/-- A line with neither mark is divided at neither. -/
theorem splitOnce_eq_none_of_not_arrowed {cs : List Char} (h : ¬ Arrowed cs) :
    Text.splitOnce ['<', '='] cs = none ∧ Text.splitOnce ['<', '-'] cs = none :=
  ⟨Text.splitOnce_eq_none_iff.2 fun hrule => h (.inl hrule),
    Text.splitOnce_eq_none_iff.2 fun himplication => h (.inr himplication)⟩

/-- **What a line is read as.** Every line is of exactly one kind, and is read as it. -/
theorem ofChars_eq_iff {cs : List Char} {line : Line} :
    Line.ofChars cs = line ↔ Line.Is cs line := by
  constructor
  · rintro rfl
    exact is_ofChars cs
  intro h
  cases h with
  | skipped h => exact ofChars_skipped h
  | question h =>
    unfold Line.ofChars
    rw [if_neg (mt skips_iff.1 (read_of_opens (o := 'q') (by decide) (by decide) (by decide) h)),
      Text.afterOpening?_eq_some_iff.2 ⟨_, h, rfl⟩]
  | answer h =>
    unfold Line.ofChars
    rw [if_neg (mt skips_iff.1 (read_of_opens (o := 'a') (by decide) (by decide) (by decide) h)),
      h.afterOpening?_eq_none (by decide) (by decide) (by decide),
      Text.afterOpening?_eq_some_iff.2 ⟨_, h, rfl⟩]
  | implications hblank h =>
    cases cs with
    | nil => cases h
    | cons c cs => exact ofChars_indented h hblank
  | rule hcs h => rw [hcs.ofChars_eq, Text.splitOnce_eq_some_iff.2 h]
  | implication hcs hrule h =>
    rw [hcs.ofChars_eq, Text.splitOnce_eq_none_iff.2 hrule, Text.splitOnce_eq_some_iff.2 h]
  | contradiction hcs harrow h =>
    obtain ⟨hrule, himplication⟩ := splitOnce_eq_none_of_not_arrowed harrow
    rw [hcs.ofChars_eq, hrule, himplication, Text.afterOpening?_eq_some_iff.2 ⟨_, h, rfl⟩]
  | unique hcs harrow h =>
    -- its first letter is not that of a contradiction
    obtain ⟨hrule, himplication⟩ := splitOnce_eq_none_of_not_arrowed harrow
    rw [hcs.ofChars_eq, hrule, himplication,
      h.afterOpening?_eq_none (by decide) (by decide) (by decide),
      Text.afterOpening?_eq_some_iff.2 ⟨_, h, rfl⟩]
  | exclusive hcs harrow h =>
    obtain ⟨hrule, himplication⟩ := splitOnce_eq_none_of_not_arrowed harrow
    have hcontradiction : Text.afterOpening? "contradiction:" cs = none :=
      h.afterOpening?_eq_none (by decide) (by decide) (by decide)
    have hunique : Text.afterOpening? "unique:" cs = none :=
      h.afterOpening?_eq_none (by decide) (by decide) (by decide)
    rw [hcs.ofChars_eq, hrule, himplication, hcontradiction, hunique,
      Text.afterOpening?_eq_some_iff.2 ⟨_, h, rfl⟩]
  | unknown hcs harrow hopen =>
    obtain ⟨hrule, himplication⟩ := splitOnce_eq_none_of_not_arrowed harrow
    have hnone : ∀ opening ∈ ["contradiction:", "unique:", "mutually exclusive:"],
        Text.afterOpening? opening cs = none :=
      fun opening hmem => Text.afterOpening?_eq_none_iff.2 (hopen opening hmem)
    rw [hcs.ofChars_eq, hrule, himplication, hnone _ (by decide), hnone _ (by decide),
      hnone _ (by decide)]

example : Line.ofChars "Unique: rain, <- snow <= ice".toList =
    .rule "Unique: rain, <- snow " " ice" := by decide

end Questionnaire

end Storyworld
