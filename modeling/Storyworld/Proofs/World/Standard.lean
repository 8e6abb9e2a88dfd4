import Storyworld.Proofs.World.Frozen
import Storyworld.Proofs.World.Partition

namespace Storyworld

/-!
# Standard worlds

The standard ontology is declared sort by sort, predicate by predicate and link by link, each by its
name. Where a name is found there is a sort or a predicate behind it, so every one of these steps is a
valid declaration or adds a pattern for a predicate that there is (`Ontology.standard_induction`). So
what declarations and patterns keep holds of the worlds that the program starts from: no call has
failed in them, and their entities are introduced (`World.exists_standard`).
-/

namespace Ontology

open Action KnowledgeBase

variable {kb kb' : KnowledgeBase} {g g' : Grammar}

theorem exists_of_bind {ε α β : Type} {x : Except ε α} {f : α → Except ε β} {b : β}
    (h : (x >>= f) = .ok b) : ∃ a, x = .ok a ∧ f a = .ok b := by
  cases x with
  | error e => cases h
  | ok a => exact ⟨a, rfl, h⟩

/-- A fold that goes through keeps what each of its steps keeps. -/
theorem foldlM_induction {ε α β : Type} {P : β → Prop} {f : β → α → Except ε β}
    (hstep : ∀ b a b', P b → f b a = .ok b' → P b') {xs : List α} {b b' : β} (hb : P b)
    (h : xs.foldlM f b = .ok b') : P b' := by
  induction xs generalizing b with
  | nil =>
    cases h
    exact hb
  | cons x xs ih =>
    rw [List.foldlM_cons] at h
    obtain ⟨c, hc, hrest⟩ := exists_of_bind h
    exact ih (hstep b x c hb hc) hrest

/-! ### Declarations by name -/

/-- To add a sort by name is to declare it. -/
theorem eq_of_addSort {name parent : String} {instances : List String}
    (h : addSort kb name parent instances = .ok kb') :
    kb' = (Declaration.sort name parent instances).perform kb := by
  show kb' = stateAfter (registerSort name parent instances) kb
  unfold addSort at h
  unfold stateAfter
  cases hregister : registerSort name parent instances kb with
  | ok s kb'' =>
    rw [hregister] at h
    exact (Except.ok.inj h).symm
  | error e kb'' =>
    rw [hregister] at h
    cases h

/-- The patterns are added for the predicate that was just declared. -/
theorem of_addPredicate {name sort : String} {patterns : List String}
    (h : addPredicate kb g name sort patterns = .ok (kb', g')) :
    ∃ d : Declaration, d.Valid kb ∧ kb' = d.perform kb ∧ ∃ p < kb'.predicates.size,
      patterns.foldlM (fun g pattern => g.add kb' p pattern) g = .ok g' := by
  obtain ⟨s, hs, h⟩ := exists_of_bind h
  obtain ⟨⟨p, kb''⟩, hdefine, h⟩ := exists_of_bind h
  obtain ⟨g'', hpatterns, h⟩ := exists_of_bind h
  obtain ⟨rfl, rfl⟩ := Prod.mk.inj (Except.ok.inj h)
  have hvalid : (Declaration.predicate name (.unary s)).Valid kb :=
    List.forall_mem_singleton.2 (Taxonomy.lt_of_find hs)
  -- the sort was found, so the declaration is valid, and what it makes is what was made here
  have hbase : kb'' = (Declaration.predicate name (.unary s)).perform kb := by
    show kb'' = ((kb.definePredicate name (.unary s)).toOption.map Prod.snd).getD kb
    rw [hdefine]
    rfl
  have hp : p < kb''.predicates.size := by
    unfold definePredicate at hdefine
    split at hdefine
    · cases hdefine
    · cases hdefine
      simp
  exact ⟨_, hvalid, hbase, p, hp, hpatterns⟩

/-- To add a link by names is a valid declaration. -/
theorem of_addLink {specific general : String} {link : Link}
    (h : addLink kb specific link general = .ok kb') :
    ∃ d : Declaration, d.Valid kb ∧ kb' = d.perform kb := by
  obtain ⟨p, hp, h⟩ := exists_of_bind h
  obtain ⟨q, hq, h⟩ := exists_of_bind h
  -- predicates that are found by name exist
  have hvalid := And.intro (lt_of_findPredicate hp) (lt_of_findPredicate hq)
  cases link with
  | relates kind =>
    refine ⟨.relation kind p q, hvalid, ?_⟩
    show kb' = (kb.relate kind p q).toOption.getD kb
    rw [show kb.relate kind p q = .ok kb' from h]
    rfl
  | excludes =>
    refine ⟨.exclusion p q, hvalid, ?_⟩
    show kb' = (kb.exclude p q).toOption.getD kb
    rw [show kb.exclude p q = .ok kb' from h]
    rfl

/-! ### The tables -/

/-- **What declarations and patterns keep holds of whatever is made of the tables.** -/
theorem standard_induction {P : KnowledgeBase → Grammar → Prop} (hroot : P (ofRoot rootName) {})
    (hdeclare : ∀ kb g (d : Declaration), d.Valid kb → P kb g → P (d.perform kb) g)
    (hpattern : ∀ kb (g : Grammar) p text g', p < kb.predicates.size →
      g.add kb p text = .ok g' → P kb g → P kb g')
    (h : standard = .ok (kb, g)) : P kb g := by
  obtain ⟨kb₁, hsorts, h⟩ := exists_of_bind h
  obtain ⟨⟨kb₂, g₂⟩, hpredicates, h⟩ := exists_of_bind h
  obtain ⟨p, hp, h⟩ := exists_of_bind h
  obtain ⟨kb₃, hlinks, h⟩ := exists_of_bind h
  obtain ⟨rfl, rfl⟩ := Prod.mk.inj (Except.ok.inj h)
  -- first the sorts, then predicates with their patterns, then the links
  have h₁ : P kb₁ {} := by
    refine foldlM_induction (P := fun kb => P kb {}) (fun kb x kb' hkb hadd => ?_) hroot hsorts
    rw [eq_of_addSort hadd]
    exact hdeclare kb {} _ trivial hkb
  have h₂ : P kb₂ g₂ := by
    refine foldlM_induction (P := fun x : KnowledgeBase × Grammar => P x.1 x.2)
      (fun x y x' hx hadd => ?_) h₁ hpredicates
    obtain ⟨d, hd, hbase, p, hp, hpatterns⟩ := of_addPredicate hadd
    have hdeclared : P x'.1 x.2 := hbase ▸ hdeclare x.1 x.2 d hd hx
    exact foldlM_induction (P := fun g => P x'.1 g)
      (fun g text g' hg hadd => hpattern _ g p text g' hp hadd hg) hdeclared hpatterns
  have h₃ := hdeclare kb₂ g₂ (.existence p) (lt_of_findPredicate hp) h₂
  refine foldlM_induction (P := fun kb => P kb g₂) (fun kb x kb' hkb hadd => ?_) h₃ hlinks
  obtain ⟨d, hd, rfl⟩ := of_addLink hadd
  exact hdeclare kb g₂ d hd hkb

end Ontology

namespace World

open Ontology

variable {ρ : Type} [RandomSource ρ] {kb : KnowledgeBase} {g : Grammar}

theorem unfailing_standard (h : Ontology.standard = .ok (kb, g)) (config : Config) (source : ρ) :
    (ofParts kb g config source).Unfailing := by
  refine standard_induction (P := fun kb g => (ofParts kb g config source).Unfailing) ?root
    (fun kb g d hd hw => ?declare) (fun kb g p text g' hp hadd hw => ?pattern) h
  case root => exact .start rootName config source config.optimize.value
  case declare => exact hw.move (m := .declare d) hd trivial
  case pattern =>
    have hmove := hw.move (m := .pattern p text) hp trivial
    have hgrammar : (g.add kb p text).toOption.getD g = g' := by
      rw [hadd]
      rfl
    rw [← hgrammar]
    exact hmove

/-- The standard ontology consists of declarations. -/
theorem declared_standard (h : Ontology.standard = .ok (kb, g)) : kb.Declared :=
  standard_induction (P := fun kb _ => kb.Declared) (.start rootName)
    (fun _ _ d _ hkb => hkb.declaration d) (fun _ _ _ _ _ _ _ hkb => hkb) h

/-- **There is a standard world for every configuration.** No call has failed in it, and its
entities are introduced. -/
theorem exists_standard (config : Config) :
    ∃ w, World.standard config = .ok w ∧ w.Unfailing ∧ w.Introduced := by
  -- that no step of the standard ontology is refused is seen by running it
  have hgoes : Ontology.standard.toOption.isSome = true := by decide +kernel
  cases hontology : Ontology.standard with
  | error e =>
    rw [hontology] at hgoes
    cases hgoes
  | ok parts =>
    refine ⟨ofParts parts.1 parts.2 config (Pcg.ofSeed config.seed.value), ?_, ?_, ?_⟩
    · unfold World.standard
      rw [hontology]
      rfl
    · exact unfailing_standard hontology config _
    · exact .start (declared_standard hontology) config _ parts.2 config.optimize.value

end World

end Storyworld
