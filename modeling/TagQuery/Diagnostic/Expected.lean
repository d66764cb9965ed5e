import TagQuery.Grammar.Rule

/-!
# Expected tokens

What a parser would have read at the place where it failed: a token, and the rule that asked for
it.
-/

namespace TagQuery

/-- What a parser looks for at one place. -/
inductive Token where
  /-- The text itself. -/
  | literal (text : String)
  /-- The text up to the case of ASCII letters. -/
  | phrase (text : String)
  /-- The end of the input. -/
  | endOfInput
deriving DecidableEq, Repr

namespace Token

/-- The text that the token stands for; the end of the input has none. -/
def text? : Token → Option String
  | literal text | phrase text => some text
  | endOfInput => none

/-- Literals stand in double quotes and phrases in back quotes; neither is escaped. -/
def render : Token → String
  | literal text => "\"" ++ text ++ "\""
  | phrase text => "`" ++ text ++ "`"
  | endOfInput => "<EOF>"

instance : ToString Token := ⟨render⟩

end Token

/-- A token and the rule that asked for it; there is no rule where a whole input was expected to
end. -/
structure Expected where
  rule : Option Rule
  token : Token
deriving DecidableEq, Repr

namespace Expected

/-- The token `token` asked for by `rule`. -/
def new (rule : Rule) (token : Token) : Expected := ⟨some rule, token⟩

/-- The end of the input. -/
def endOfInput : Expected := ⟨none, .endOfInput⟩

/-- The name of the rule, or that of the grammar if there is no rule. -/
def origin (e : Expected) : String :=
  match e.rule with
  | some rule => rule.qualifiedName
  | none => Rule.grammarName

/-- The token and where it comes from. -/
def render (e : Expected) : String := e.token.render ++ " from " ++ e.origin

instance : ToString Expected := ⟨render⟩

/-! ### Listing each entry once -/

variable {e : Expected} {es : List Expected}

theorem eraseDups_append_of_mem (h : e ∈ es) : (es ++ [e]).eraseDups = es.eraseDups := by
  have hlast : [e].removeAll es = [] := by simp [List.removeAll, h]
  rw [List.eraseDups_append, hlast, List.eraseDups_nil, List.append_nil]

theorem eraseDups_append_of_not_mem (h : e ∉ es) :
    (es ++ [e]).eraseDups = es.eraseDups ++ [e] := by
  have hlast : [e].removeAll es = [e] := by simp [List.removeAll, h]
  rw [List.eraseDups_append, hlast]
  rfl

end Expected

end TagQuery
