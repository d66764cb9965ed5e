import TagQuery.Text.Basic

/-!
# The vocabulary

The tags that a query can ask for form a closed vocabulary of two categories.  A tag is written as
its phrase, in any mixture of upper and lower case ASCII letters.

`Tag.all` fixes the order in which phrases are tried; the tags of one category stand together in
it (`Category.flatMap_tags`).
-/

namespace TagQuery

/-- The kinds of tags. -/
inductive Category where
  | contemporaryMeaning
  | syntacticFunction
deriving DecidableEq, Repr

/-- The tags that a query can ask for. -/
inductive Tag where
  | largeQuantity
  | negativeAssessment
  | booster
  | argument
  | coordinator
  | discourseParticle
  | government
  | matrixPredicate
  | modifier
  | nominalQuantifier
  | object
  | parenthetical
  | praedicativeExpression
  | subject
  | subordinator
  | verbPredicate
  | wordFormation
deriving DecidableEq, Repr

namespace Tag

/-- Every tag, in the order in which phrases are tried. -/
def all : List Tag :=
  [largeQuantity, negativeAssessment, booster, argument, coordinator, discourseParticle,
    government, matrixPredicate, modifier, nominalQuantifier, object, parenthetical,
    praedicativeExpression, subject, subordinator, verbPredicate, wordFormation]

theorem mem_all (tag : Tag) : tag ∈ all := by cases tag <;> decide

/-- The canonical spelling of a tag. -/
def phrase : Tag → String
  | largeQuantity => "large quantity"
  | negativeAssessment => "negative assessment"
  | booster => "booster"
  | argument => "Argument"
  | coordinator => "Coordinator"
  | discourseParticle => "Discourse Particle"
  | government => "Government"
  | matrixPredicate => "Matrix Predicate"
  | modifier => "Modifier"
  | nominalQuantifier => "Nominal Quantifier"
  | object => "Object"
  | parenthetical => "Parenthetical"
  | praedicativeExpression => "Praedicative Expression"
  | subject => "Subject"
  | subordinator => "Subordinator"
  | verbPredicate => "Verb Predicate"
  | wordFormation => "Word-Formation"

instance : ToString Tag := ⟨phrase⟩

/-- The kind of a tag. -/
def category : Tag → Category
  | largeQuantity | negativeAssessment | booster => .contemporaryMeaning
  | _ => .syntacticFunction

/-- The text `w` spells the tag: it is the phrase of the tag up to the case of ASCII letters. -/
def SpelledBy (tag : Tag) (w : Text) : Prop := w.foldCase = Text.foldCase tag.phrase.toList

instance (tag : Tag) (w : Text) : Decidable (tag.SpelledBy w) :=
  inferInstanceAs (Decidable (_ = _))

/-- The tag that a text spells. -/
def ofPhrase? (s : String) : Option Tag := all.find? (·.SpelledBy s.toList)

end Tag

namespace Category

/-- Both categories, in the order in which they are tried. -/
def all : List Category := [contemporaryMeaning, syntacticFunction]

/-- The tags of a category, in the order in which their phrases are tried. -/
def tags (category : Category) : List Tag := Tag.all.filter (·.category = category)

theorem mem_tags {category : Category} {tag : Tag} :
    tag ∈ category.tags ↔ tag.category = category := by
  simp [tags, Tag.mem_all]

/-- Trying category by category tries every phrase in the order of the vocabulary. -/
theorem flatMap_tags : all.flatMap tags = Tag.all := by decide

end Category

end TagQuery
