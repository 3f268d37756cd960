import ThreeAddress.Token

/-!
# The grammar of the written form

The productions of the written form as data: `Grammar.rules` gives the form behind each name, and
`Grammar.Derives` says which tokens a form stands for. Words, marks and the classes of tokens are the
terminals; a name may be any word, also one that has a meaning in another place.

The reader is more lenient than that in three places, which `Grammar.leniency?` lists.

To show that tokens are not derivable at all, give each token a weight. The weight of what a form stands
for is bounded by adding up along the form (`Form.ceiling`), provided that bounds for the names are kept
by their own forms; tokens above the bound are not derivable (`not_derives_of_weight`).
-/

namespace ThreeAddress

namespace Grammar

inductive Rule where
  | program | imported | unit | member | field | method | params | body | stmt | rhs | call
  | element | ty | typed | access | modifier | op
  deriving DecidableEq, Repr

inductive Terminal where
  | word (word : String)
  | mark (mark : Mark)
  | name | param | number | str
  deriving DecidableEq, Repr

def Terminal.matches : Terminal → Token → Bool
  | .word text, .name found => found == text
  | .mark wanted, .mark found => found == wanted
  | .name, .name _ => true
  | .param, .param _ => true
  | .number, .number _ => true
  | .str, .str _ => true
  | _, _ => false

inductive Form where
  | terminal (terminal : Terminal)
  | rule (rule : Rule)
  | seq (first second : Form)
  | either (first second : Form)
  | opt (form : Form)
  | many (form : Form)
  deriving DecidableEq, Repr

/-- The tokens are what the form stands for. -/
inductive Derives (grammar : Rule → Form) : Form → List Token → Prop
  | terminal {terminal : Terminal} {token : Token} : terminal.matches token = true →
    Derives grammar (.terminal terminal) [token]
  | rule {rule : Rule} {tokens : List Token} : Derives grammar (grammar rule) tokens →
    Derives grammar (.rule rule) tokens
  | seq {first second : Form} {tokens others : List Token} : Derives grammar first tokens →
    Derives grammar second others → Derives grammar (.seq first second) (tokens ++ others)
  | left {first second : Form} {tokens : List Token} : Derives grammar first tokens →
    Derives grammar (.either first second) tokens
  | right {first second : Form} {tokens : List Token} : Derives grammar second tokens →
    Derives grammar (.either first second) tokens
  | skip {form : Form} : Derives grammar (.opt form) []
  | take {form : Form} {tokens : List Token} : Derives grammar form tokens →
    Derives grammar (.opt form) tokens
  | stop {form : Form} : Derives grammar (.many form) []
  | more {form : Form} {tokens others : List Token} : Derives grammar form tokens →
    Derives grammar (.many form) others → Derives grammar (.many form) (tokens ++ others)

-- ---------------------------------------------------------------------------
-- The productions
-- ---------------------------------------------------------------------------

instance : Append Form := ⟨.seq⟩

instance : OrOp Form := ⟨.either⟩

namespace Form

def word (text : String) : Form := .terminal (.word text)

def mark (wanted : Mark) : Form := .terminal (.mark wanted)

def name : Form := .terminal .name

def param : Form := .terminal .param

def number : Form := .terminal .number

def str : Form := .terminal .str

end Form

open Form

/-- The grammar of the written form. -/
def rules : Rule → Form
  | .program => many (rule .imported) ++ rule .unit
  | .imported => word "import" ++ name ++ many (mark .dot ++ name) ++ mark .semicolon
  | .unit =>
    opt (rule .access) ++ name ++ opt (word "extends" ++ name)
      ++ mark .leftBrace ++ many (rule .member) ++ mark .rightBrace
  | .member => rule .field ||| rule .method
  | .field =>
    mark .dot ++ word "field" ++ many (rule .modifier) ++ name ++ rule .typed ++ mark .semicolon
  | .method =>
    mark .dot ++ word "method" ++ many (rule .modifier) ++ name ++ rule .params ++ rule .typed
      ++ rule .body
    ||| mark .dot ++ word "construct" ++ name ++ rule .params ++ rule .typed ++ rule .body
  | .params =>
    mark .leftParen ++ opt (name ++ rule .typed ++ many (mark .comma ++ name ++ rule .typed))
      ++ mark .rightParen
  | .body => mark .leftBrace ++ many (rule .stmt) ++ mark .rightBrace
  | .stmt =>
    name ++ mark .colon
    ||| word "goto" ++ name ++ mark .semicolon
    ||| word "if" ++ mark .leftParen ++ rule .rhs ++ mark .rightParen ++ word "goto" ++ name
      ++ mark .semicolon
    ||| word "ret" ++ rule .typed ++ opt (rule .element) ++ mark .semicolon
    ||| rule .call ++ mark .semicolon
    ||| rule .element ++ mark .colonEqual ++ rule .typed ++ rule .rhs ++ mark .semicolon
  | .rhs =>
    mark .bang ++ rule .typed ++ rule .element
    ||| rule .call
    ||| rule .element ++ opt (rule .op ++ rule .typed ++ rule .element)
  | .call =>
    (word "invokevirtual" ||| word "invokestatic" ||| word "invokespecial")
      ++ mark .leftParen ++ rule .element ++ mark .comma ++ str ++ many (mark .comma ++ rule .element)
      ++ mark .rightParen ++ rule .typed
    ||| word "new" ++ mark .leftParen ++ rule .element ++ many (mark .comma ++ rule .element)
      ++ mark .rightParen ++ rule .typed
    ||| word "arraylength" ++ mark .leftParen ++ rule .element ++ mark .rightParen ++ rule .typed
    ||| word "getfield" ++ mark .leftParen ++ rule .element ++ mark .comma ++ rule .element
      ++ mark .rightParen ++ rule .typed
    ||| word "putfield" ++ mark .leftParen ++ rule .element ++ mark .comma ++ rule .element
      ++ mark .comma ++ rule .element ++ mark .rightParen ++ rule .typed
  | .element =>
    opt (mark .minus) ++ number ++ rule .typed
    ||| (word "true" ||| word "false") ++ rule .typed
    ||| word "this" ++ opt (rule .typed)
    ||| opt (param ++ mark .dot) ++ name
      ++ opt (mark .leftBracket ++ rule .element ++ mark .rightBracket) ++ rule .typed
    ||| name
  | .ty =>
    word "i32" ||| word "bool" ||| word "V" ||| word "String"
    ||| word "array" ++ mark .dot ++ rule .ty
    ||| name
  | .typed => mark .dot ++ rule .ty
  | .access => word "public" ||| word "private" ||| word "protected" ||| word "default"
  | .modifier => rule .access ||| word "static" ||| word "final"
  | .op =>
    mark .plus ||| mark .minus ||| mark .star ||| mark .slash ||| mark .andAnd ||| mark .orOr
    ||| mark .less ||| mark .greater ||| mark .lessEqual ||| mark .greaterEqual
    ||| mark .equalEqual ||| mark .bangEqual

/-- What the reader takes as well: a constructor with modifiers, the length of an array with arguments
behind the array, and a class with the index of a parameter before it. -/
def leniency? : Rule → Option Form
  | .method =>
    some (mark .dot ++ word "construct" ++ (rule .modifier ++ many (rule .modifier)) ++ name
      ++ rule .params ++ rule .typed ++ rule .body)
  | .call =>
    some (word "arraylength" ++ mark .leftParen ++ rule .element
      ++ (mark .comma ++ rule .element ++ many (mark .comma ++ rule .element))
      ++ mark .rightParen ++ rule .typed)
  | .element => some (param ++ mark .dot ++ name)
  | _ => none

/-- The grammar of what the reader takes. -/
def lenient (rule : Rule) : Form :=
  match leniency? rule with
  | some more => rules rule ||| more
  | none => rules rule

-- ---------------------------------------------------------------------------
-- Weights
-- ---------------------------------------------------------------------------

/-- How heavy the tokens of a form get: there are no such tokens, none are heavier than so much, or
nothing is known. -/
inductive Ceiling where
  | absent
  | upTo (most : Int)
  | unknown
  deriving DecidableEq, Repr

namespace Ceiling

def Allows : Ceiling → Int → Prop
  | .absent, _ => False
  | .upTo most, weight => weight ≤ most
  | .unknown, _ => True

def add : Ceiling → Ceiling → Ceiling
  | .absent, _ | _, .absent => .absent
  | .upTo first, .upTo second => .upTo (first + second)
  | _, _ => .unknown

def max : Ceiling → Ceiling → Ceiling
  | .absent, other | other, .absent => other
  | .upTo first, .upTo second => .upTo (Max.max first second)
  | _, _ => .unknown

def le : Ceiling → Ceiling → Bool
  | .absent, _ | _, .unknown => true
  | .upTo first, .upTo second => first ≤ second
  | _, _ => false

variable {first second : Ceiling} {weight other : Int}

theorem allows_add (h : first.Allows weight) (h' : second.Allows other) :
    (first.add second).Allows (weight + other) := by
  cases first <;> cases second <;> simp_all only [Allows, add]
  exact Int.add_le_add h h'

theorem allows_max_left (h : first.Allows weight) : (first.max second).Allows weight := by
  cases first <;> cases second <;> simp_all only [Allows, max]
  exact Int.le_trans h (Int.le_max_left _ _)

theorem allows_max_right (h : second.Allows weight) : (first.max second).Allows weight := by
  cases first <;> cases second <;> simp_all only [Allows, max]
  exact Int.le_trans h (Int.le_max_right _ _)

theorem allows_of_le (hle : first.le second = true) (h : first.Allows weight) :
    second.Allows weight := by
  cases first <;> cases second <;> simp_all [Allows, le]
  exact Int.le_trans h hle

end Ceiling

def weigh (weight : Token → Int) : List Token → Int
  | [] => 0
  | token :: rest => weight token + weigh weight rest

theorem weigh_append (weight : Token → Int) (first second : List Token) :
    weigh weight (first ++ second) = weigh weight first + weigh weight second := by
  induction first with
  | nil => simp [weigh]
  | cons token rest ih => simp only [List.cons_append, weigh, ih, Int.add_assoc]

/-- The heaviest of the tokens that pass a test. -/
def heaviest (weight : Token → Int) (test : Token → Bool) : List Token → Ceiling
  | [] => .absent
  | token :: rest =>
    if test token then (heaviest weight test rest).max (.upTo (weight token))
    else heaviest weight test rest

theorem allows_heaviest {weight : Token → Int} {test : Token → Bool} {token : Token}
    {allowed : List Token} (h : token ∈ allowed) (htest : test token = true) :
    (heaviest weight test allowed).Allows (weight token) := by
  induction allowed with
  | nil => cases h
  | cons head rest ih =>
    simp only [heaviest]
    rcases List.mem_cons.mp h with rfl | h
    · rw [if_pos htest]
      exact Ceiling.allows_max_right (Int.le_refl _)
    · split
      · exact Ceiling.allows_max_left (ih h)
      · exact ih h

/-- A bound for the tokens of a form, if no others occur than those allowed. A repetition has one only if
what is repeated adds nothing. -/
def Form.ceiling (allowed : List Token) (weight : Token → Int) (bound : Rule → Ceiling) :
    Form → Ceiling
  | .terminal kind => heaviest weight kind.matches allowed
  | .rule called => bound called
  | .seq first second =>
    (first.ceiling allowed weight bound).add (second.ceiling allowed weight bound)
  | .either first second =>
    (first.ceiling allowed weight bound).max (second.ceiling allowed weight bound)
  | .opt form => (form.ceiling allowed weight bound).max (.upTo 0)
  | .many form => if (form.ceiling allowed weight bound).le (.upTo 0) then .upTo 0 else .unknown

variable {grammar : Rule → Form} {allowed : List Token} {weight : Token → Int} {bound : Rule → Ceiling}

theorem Derives.weight_allowed
    (hbound : ∀ rule, ((grammar rule).ceiling allowed weight bound).le (bound rule) = true)
    {form : Form} {tokens : List Token} (h : Derives grammar form tokens)
    (hallowed : ∀ token ∈ tokens, token ∈ allowed) :
    (form.ceiling allowed weight bound).Allows (weigh weight tokens) := by
  induction h with
  | @terminal terminal token hmatches =>
    have heq : weigh weight [token] = weight token := Int.add_zero _
    rw [heq]
    exact allows_heaviest (hallowed token (List.mem_singleton_self _)) hmatches
  | rule _ ih => exact Ceiling.allows_of_le (hbound _) (ih hallowed)
  | seq _ _ ih ih' =>
    rw [weigh_append]
    obtain ⟨hfirst, hsecond⟩ := List.forall_mem_append.mp hallowed
    exact Ceiling.allows_add (ih hfirst) (ih' hsecond)
  | left _ ih => exact Ceiling.allows_max_left (ih hallowed)
  | right _ ih => exact Ceiling.allows_max_right (ih hallowed)
  | skip => exact Ceiling.allows_max_right (Int.le_refl 0)
  | take _ ih => exact Ceiling.allows_max_left (ih hallowed)
  | stop =>
    simp only [Form.ceiling]
    split
    · exact Int.le_refl 0
    · trivial
  | @more form tokens others _ _ ih ih' =>
    rw [weigh_append]
    obtain ⟨hfirst, hsecond⟩ := List.forall_mem_append.mp hallowed
    have hothers := ih' hsecond
    simp only [Form.ceiling] at hothers ⊢
    split
    · next hle =>
      rw [if_pos hle] at hothers
      have hone : weigh weight tokens ≤ 0 := Ceiling.allows_of_le hle (ih hfirst)
      exact Int.add_le_add hone hothers
    · trivial

theorem not_derives_of_weight {rule : Rule} {tokens : List Token}
    (hbound : ∀ rule, ((grammar rule).ceiling tokens weight bound).le (bound rule) = true)
    (hheavy : (bound rule).le (.upTo (weigh weight tokens - 1)) = true) :
    ¬ Derives grammar (.rule rule) tokens := by
  intro h
  have hallows := h.weight_allowed hbound fun _ htoken => htoken
  have hbelow : weigh weight tokens ≤ weigh weight tokens - 1 := Ceiling.allows_of_le hheavy hallows
  omega

end Grammar

end ThreeAddress
