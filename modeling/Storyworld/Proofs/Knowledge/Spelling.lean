import Storyworld.Proofs.Knowledge.Discovery
import Storyworld.Proofs.Text.Padding

namespace Storyworld

/-!
# How propositions are spelled

The text of a proposition is put together from names, none of which is quoted, so different
propositions may have one text. Of what can be said in phrases (`KnowledgeBase.Utterance`), two
propositions have one text in three cases only (`Proposition.Clash`): a word is spelled like a call; an
entity is called like a sort, with the sign of sorts in front; or the name of one predicate goes on,
after an opening parenthesis, in the name of another. In all other cases the text tells the proposition
(`Utterance.text_eq_iff`).

The crux is what ends a name. The first opening parenthesis ends the predicate unless the name has one
itself (`Call.nested_of_text_eq`), and the first blank comes right after the first entity, since
entities in phrases are words (`Text.Unbroken.pair_inj`).
-/

theorem Arguments.entities_of_ofList? {es : List String} {args : Arguments}
    (h : ofList? es = some args) : args.entities = es := by
  unfold ofList? at h
  split at h <;> cases h <;> rfl

/-- The entities are single words. -/
def Arguments.Unbroken (args : Arguments) : Prop := ∀ e ∈ args.entities, Text.Unbroken e

namespace Call

variable {c d : Call}

theorem toList_text (c : Call) : c.text.toList =
    (c.predicate ++ "(").toList ++
      ((String.intercalate ", " (c.args.map Term.text)).toList ++ [')']) := by
  rw [text, String.toList_append, String.toList_append, List.append_assoc]
  rfl

/-- Calls of one predicate that have one text have arguments of one text. -/
theorem args_text_eq (h : c.text = d.text) (hname : c.predicate = d.predicate) :
    String.intercalate ", " (c.args.map Term.text) =
      String.intercalate ", " (d.args.map Term.text) := by
  have hchars := congrArg String.toList h
  rw [toList_text, toList_text, hname] at hchars
  exact String.toList_inj.1 (List.append_cancel_right (List.append_cancel_left hchars))

/-- If calls of different predicates have one text, the name of one predicate and an opening
parenthesis begin the name of the other. -/
theorem nested_of_text_eq (h : c.text = d.text) (hname : c.predicate ≠ d.predicate) :
    (c.predicate ++ "(").toList <+: d.predicate.toList ∨
      (d.predicate ++ "(").toList <+: c.predicate.toList := by
  have hbegins : ∀ c : Call, (c.predicate ++ "(").toList <+: c.text.toList := by
    intro c
    rw [toList_text]
    exact List.prefix_append _ _
  -- a name with its parenthesis that begins another such name ends before the last parenthesis
  have hshorter : ∀ {m n : String}, m ≠ n → (m ++ "(").toList <+: (n ++ "(").toList →
      (m ++ "(").toList <+: n.toList := by
    intro m n hne hprefix
    have hn : (n ++ "(").toList = n.toList ++ ['('] := String.toList_append
    rw [hn] at hprefix
    refine (List.prefix_concat_iff.1 hprefix).resolve_left fun heq => hne ?_
    rw [String.toList_append] at heq
    exact String.toList_inj.1 (List.append_cancel_right heq)
  -- both begin the same text, so one begins the other
  rcases List.prefix_or_prefix_of_prefix (h ▸ hbegins c) (hbegins d) with hprefix | hprefix
  · exact Or.inl (hshorter hname hprefix)
  · exact Or.inr (hshorter hname.symm hprefix)

end Call

namespace Proposition

/-- The two propositions are different and have one text. -/
inductive Clash : Proposition → Proposition → Prop where
  /-- The word is spelled like the call. -/
  | spelled (c : Call) : Clash (.word c.text) (.call c)
  /-- The entity is called like the sort, with the sign of sorts in front. -/
  | marked (predicate sort : String) :
    Clash (.ofEntities predicate ["§" ++ sort]) (.ofSort predicate sort)
  /-- The name of one predicate goes on in the name of the other. -/
  | nested {c d : Call} (hname : (c.predicate ++ "(").toList <+: d.predicate.toList)
    (htext : c.text = d.text) : Clash (.call c) (.call d)

/-- Propositions that clash have the same text. -/
theorem Clash.text_eq {x y : Proposition} (h : x.Clash y) : x.text = y.text := by
  cases h with
  | spelled c => rfl
  | marked predicate sort => rfl
  | nested hname htext => exact htext

end Proposition

namespace KnowledgeBase

variable {kb : KnowledgeBase} {x y : Proposition} {p q : PredicateId} {s t : SortId}
  {args args' : Arguments}

/-- What can be said in a phrase, or follows from what is said: a word, a call on as many words as the
predicate takes, or an existential of a unary predicate. -/
inductive Utterance (kb : KnowledgeBase) : Proposition → Prop where
  | word (w : String) : Utterance kb (.word w)
  | call {p : PredicateId} {args : Arguments} (hp : p < kb.predicates.size)
    (harity : (kb.predicate p).signature.arity = args.arity) (hargs : args.Unbroken) :
    Utterance kb (kb.callOf p args)
  | member {p : PredicateId} {s : SortId} (hp : p < kb.predicates.size)
    (hunary : (kb.predicate p).signature.arity = 1) (hs : s < kb.taxonomy.size) :
    Utterance kb (kb.someMember p s)

/-- Calls of one predicate that have one text are the same. -/
theorem eq_of_text_callOf (hargs : args.Unbroken) (hargs' : args'.Unbroken)
    (harity : args.arity = args'.arity) (h : (kb.callOf p args).text = (kb.callOf p args').text) :
    args = args' := by
  have htext := Call.args_text_eq h rfl
  cases args with
  | one e =>
    cases args' with
    | one e' => exact congrArg Arguments.one htext
    | two l' r' => cases harity
  | two l r =>
    cases args' with
    | one e' => cases harity
    | two l' r' =>
      -- the separator has a blank, and the entities have none
      obtain ⟨rfl, rfl⟩ := Text.Unbroken.pair_inj (hargs l List.mem_cons_self)
        (hargs' l' List.mem_cons_self) htext
      rfl

/-- A call and an existential of one predicate have one text only if the entity is called like the
sort, with its sign. -/
theorem clash_of_text_someMember (harity : args.arity = 1)
    (h : (kb.callOf p args).text = (kb.someMember p s).text) :
    (kb.callOf p args).Clash (kb.someMember p s) := by
  have htext := Call.args_text_eq h rfl
  cases args with
  | one e =>
    obtain rfl : e = "§" ++ kb.taxonomy.name s := htext
    exact .marked _ _
  | two l r => cases harity

/-- What is said of members of two sorts has one text only if the sorts have one name. -/
theorem someMember_eq_of_text (h : (kb.someMember p s).text = (kb.someMember p t).text) :
    kb.someMember p s = kb.someMember p t := by
  have htext := congrArg String.toList (Call.args_text_eq h rfl)
  have htext : ("§" ++ kb.taxonomy.name s).toList = ("§" ++ kb.taxonomy.name t).toList := htext
  rw [String.toList_append, String.toList_append] at htext
  rw [someMember, someMember, String.toList_inj.1 (List.append_cancel_left htext)]

/-- What is said of different predicates has one text only if one name goes on in the other. -/
theorem Orderly.eq_or_clash (hkb : kb.Orderly) (hp : p < kb.predicates.size)
    (hq : q < kb.predicates.size) {ts us : List Term}
    (h : Call.text ⟨(kb.predicate p).name, ts⟩ = Call.text ⟨(kb.predicate q).name, us⟩) :
    p = q ∨ (Proposition.call ⟨(kb.predicate p).name, ts⟩).Clash (.call ⟨(kb.predicate q).name, us⟩) ∨
      (Proposition.call ⟨(kb.predicate q).name, us⟩).Clash (.call ⟨(kb.predicate p).name, ts⟩) := by
  by_cases hname : (kb.predicate p).name = (kb.predicate q).name
  · exact Or.inl (hkb.names p q hp hq hname)
  · exact Or.inr ((Call.nested_of_text_eq h hname).imp (fun hnested => .nested hnested h)
      fun hnested => .nested hnested h.symm)

/-- **The text tells the proposition, up to the three kinds of clashes.** -/
theorem Utterance.text_eq_iff (hkb : kb.Orderly) (hx : kb.Utterance x) (hy : kb.Utterance y) :
    x.text = y.text ↔ x = y ∨ x.Clash y ∨ y.Clash x := by
  refine ⟨fun h => ?_, ?_⟩
  · -- a word is its own text, and every other text begins with the name of a predicate
    cases hx with
    | word w =>
      obtain rfl : w = y.text := h
      cases y with
      | word v => exact Or.inl rfl
      | call d => exact Or.inr (Or.inl (.spelled d))
    | call hp harity hargs =>
      cases hy with
      | word v =>
        obtain rfl : _ = v := h
        exact Or.inr (Or.inr (.spelled _))
      | call hq harity' hargs' =>
        -- with the same predicate the arguments decide, otherwise one name goes on in the other
        rcases hkb.eq_or_clash hp hq h with rfl | hclash
        · rw [eq_of_text_callOf hargs hargs' (harity.symm.trans harity') h]
          exact Or.inl rfl
        · exact Or.inr hclash
      | member hq hunary hs =>
        rcases hkb.eq_or_clash hp hq h with rfl | hclash
        · exact Or.inr (Or.inl (clash_of_text_someMember (harity.symm.trans hunary) h))
        · exact Or.inr hclash
    | member hp hunary hs =>
      cases hy with
      | word v =>
        obtain rfl : _ = v := h
        exact Or.inr (Or.inr (.spelled _))
      | call hq harity hargs =>
        rcases hkb.eq_or_clash hp hq h with rfl | hclash
        · exact Or.inr (Or.inr (clash_of_text_someMember (harity.symm.trans hunary) h.symm))
        · exact Or.inr hclash
      | member hq hunary' ht =>
        rcases hkb.eq_or_clash hp hq h with rfl | hclash
        · exact Or.inl (someMember_eq_of_text h)
        · exact Or.inr hclash
  · rintro (rfl | hclash | hclash)
    · rfl
    · exact hclash.text_eq
    · exact hclash.text_eq.symm

end KnowledgeBase

end Storyworld
