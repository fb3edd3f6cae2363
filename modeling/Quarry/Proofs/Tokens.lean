import Quarry.Proofs.Literals
/-!
Tokens of a query text. Outside of literals a text is cut into words and symbols, with blanks
between them where they are needed. Texts that are put together have the tokens of the one and then
those of the other, as long as no two words meet.
-/
namespace Quarry.Sql

/-! Tokens -/

/-- An operation that is written between its operands. -/
inductive Operation where
  | logical (op : Logical)
  | comparison (op : Comparison)
  | arithmetic (op : Arithmetic)
  | concatenation
  deriving DecidableEq

inductive Token where
  | name (n : String)
  | number (digits : String)
  | text (payload : String)
  | null
  | not
  | is
  | modulo
  | opening
  | closing
  | comma
  | operation (op : Operation)
  deriving DecidableEq

/-- A run of characters that belong together. -/
inductive Lexeme where
  | blank
  | word (cs : List Char)
  | symbol (cs : List Char)
  | literal (payload : String)

def isBlank (c : Char) : Bool := c = ' ' || c = '\n'

/-- The characters of symbols. -/
def isSymbolic (c : Char) : Bool := c ∈ ['(', ')', ',', '+', '-', '*', '/', '|', '=', '<', '>']

/-- All that is neither a blank, a quote nor part of a symbol; a point joins the parts of a name. -/
def isWordChar (c : Char) : Bool := !isBlank c && !isSymbolic c && c ≠ '\''

/-- The symbols of two characters. -/
def pairs : List (List Char) := [['<', '>'], ['<', '='], ['>', '='], ['|', '|']]

/-- Puts a character in front of the word that follows it. -/
def joinWord (c : Char) : List Lexeme → List Lexeme
  | .word cs :: ls => .word (c :: cs) :: ls
  | ls => .word [c] :: ls

/-- Puts a character in front of what follows it, as a part of a symbol if the two make one. -/
def joinSymbol (c : Char) : List Lexeme → List Lexeme
  | .symbol cs :: ls =>
    if c :: cs ∈ pairs then .symbol (c :: cs) :: ls else .symbol [c] :: .symbol cs :: ls
  | ls => .symbol [c] :: ls

/-- Puts a piece in front of what follows it. -/
def extend : Piece → List Lexeme → List Lexeme
  | .literal payload, ls => .literal payload :: ls
  | .outside c, ls =>
    if isBlank c then .blank :: ls else if isWordChar c then joinWord c ls else joinSymbol c ls

def keywords : List (String × Token) :=
  [("AND", .operation (.logical .and)), ("OR", .operation (.logical .or)), ("NOT", .not),
    ("IS", .is), ("NULL", .null), ("MOD", .modulo)]

def symbols : List (String × Token) :=
  [("(", .opening), (")", .closing), (",", .comma),
    ("=", .operation (.comparison .eq)), ("<>", .operation (.comparison .ne)),
    ("<", .operation (.comparison .lt)), ("<=", .operation (.comparison .le)),
    (">", .operation (.comparison .gt)), (">=", .operation (.comparison .ge)),
    ("+", .operation (.arithmetic .add)), ("-", .operation (.arithmetic .sub)),
    ("*", .operation (.arithmetic .mul)), ("/", .operation (.arithmetic .div)),
    ("||", .operation .concatenation)]

/-- A word is a keyword, a number or a name. -/
def wordToken (w : String) : Token :=
  (keywords.lookup w).getD (if w.toList.all Char.isDigit then .number w else .name w)

/-- Blanks are dropped; a symbol has to be known. -/
def tokenize : List Lexeme → Option (List Token)
  | [] => some []
  | .blank :: ls => tokenize ls
  | .word cs :: ls => (tokenize ls).map (wordToken (.ofList cs) :: ·)
  | .symbol cs :: ls =>
    (symbols.lookup (.ofList cs)).bind fun token => (tokenize ls).map (token :: ·)
  | .literal payload :: ls => (tokenize ls).map (.text payload :: ·)

/-- The tokens of a text. -/
def tokens (text : String) : Option (List Token) :=
  (split text).bind fun pieces => tokenize (pieces.foldr extend [])

/-! Texts that are put together -/

/-- What follows a word without being part of it. -/
def Apart : List Lexeme → Prop
  | .word _ :: _ => False
  | _ => True

/-- The pieces are cut into these tokens, whatever follows. -/
def Cuts (pieces : List Piece) (ts : List Token) (ls : List Lexeme) : Prop :=
  tokenize (pieces.foldr extend ls) = (tokenize ls).map (ts ++ ·)

/-- A text has these tokens on its own, whatever follows it apart from a quote or a word. -/
def Lexes (t : String) (ts : List Token) : Prop :=
  ∃ pieces, Splits t pieces ∧ ∀ ls, Apart ls → Cuts pieces ts ls

/-- A text without literals has these tokens, whatever follows it. -/
def Opens (s : String) (ts : List Token) : Prop :=
  Plain s ∧ ∀ ls, Cuts (s.toList.map .outside) ts ls

/-- A text that begins with neither a word nor a literal. -/
def Leads (s : String) : Prop := s.toList.head?.any fun c => isBlank c || isSymbolic c

instance (s : String) : Decidable (Leads s) := inferInstanceAs (Decidable (_ = true))

theorem Cuts.append {xs ys : List Piece} {ts us : List Token} {ls : List Lexeme}
    (hx : Cuts xs ts (ys.foldr extend ls)) (hy : Cuts ys us ls) :
    Cuts (xs ++ ys) (ts ++ us) ls := by
  rw [Cuts, List.foldr_append, hx, hy, Option.map_map]
  simp only [Function.comp_def, List.append_assoc]

theorem Leads.not_wordChar {c : Char} (h : isBlank c || isSymbolic c) : isWordChar c = false := by
  rcases Bool.or_eq_true_iff.mp h with h | h <;> simp [isWordChar, h]

theorem apart_extend {c : Char} (h : isBlank c || isSymbolic c) (ls : List Lexeme) :
    Apart (extend (.outside c) ls) := by
  rw [extend, Leads.not_wordChar h, if_neg Bool.false_ne_true]
  split
  · trivial
  · unfold joinSymbol
    split
    · split <;> trivial
    · trivial

/-- A text that begins with a blank or a symbol is cut off from a word before it. -/
theorem Leads.apart {u : String} {pieces : List Piece} (h : Leads u) (hu : Splits u pieces)
    (ls : List Lexeme) : Apart (pieces.foldr extend ls) := by
  have hsplit := hu.split
  rw [split] at hsplit
  rw [Leads] at h
  cases hcs : u.toList with
  | nil => simp [hcs] at h
  | cons c cs =>
      have hc : isBlank c || isSymbolic c := by simpa [hcs] using h
      have hquote : '\'' ∉ [c] := by
        rintro hmem
        obtain rfl := List.mem_singleton.mp hmem
        exact absurd hc (by decide)
      rw [hcs, ← List.singleton_append, splitFrom_plain hquote, Option.map_eq_some_iff] at hsplit
      obtain ⟨rest, -, rfl⟩ := hsplit
      exact apart_extend hc _

theorem Leads.head {u : String} (h : Leads u) : u.toList.head? ≠ some '\'' := by
  intro hhead
  rw [Leads, hhead] at h
  exact absurd h (by decide)

theorem Leads.append {s : String} (h : Leads s) (t : String) : Leads (s ++ t) := by
  rw [Leads] at h ⊢
  rw [String.toList_append]
  cases hcs : s.toList with
  | nil => simp [hcs] at h
  | cons c cs => simpa [hcs] using h

theorem Opens.lexes {s : String} {ts : List Token} (h : Opens s ts) : Lexes s ts :=
  ⟨_, .plain h.1, fun ls _ => h.2 ls⟩

namespace Lexes

variable {s t u : String} {ts us vs : List Token}

theorem tokens (h : Lexes t ts) : tokens t = some ts := by
  obtain ⟨pieces, hsplits, hcuts⟩ := h
  have hend := hcuts [] trivial
  simp only [Cuts, tokenize, Option.map_some, List.append_nil] at hend
  rw [Sql.tokens, hsplits.split, Option.bind_some, hend]

theorem quoted (s : String) : Lexes (quoted s) [.text s] :=
  ⟨[.literal s], .quoted s, fun _ _ => rfl⟩

theorem prepend (hs : Opens s ts) (h : Lexes t us) : Lexes (s ++ t) (ts ++ us) := by
  obtain ⟨pieces, hsplits, hcuts⟩ := h
  exact ⟨_, hsplits.prepend hs.1, fun ls hls => (hs.2 _).append (hcuts ls hls)⟩

theorem append (h : Lexes t ts) (k : Lexes u us) (hlead : Leads u) :
    Lexes (t ++ u) (ts ++ us) := by
  obtain ⟨xs, hxs, hx⟩ := h
  obtain ⟨ys, hys, hy⟩ := k
  exact ⟨_, hxs.append hys hlead.head, fun ls hls =>
    (hx _ (hlead.apart hys ls)).append (hy ls hls)⟩

/-- Two texts with something between them. -/
theorem between (h : Lexes t ts) (hs : Opens s us) (hlead : Leads s) (k : Lexes u vs) :
    Lexes (t ++ s ++ u) (ts ++ (us ++ vs)) := by
  rw [String.append_assoc]
  exact h.append (k.prepend hs) (hlead.append u)

end Lexes

/-! Words and symbols -/

theorem foldr_extend_word {cs : List Char} (hne : cs ≠ []) (hcs : ∀ c ∈ cs, isWordChar c)
    {ls : List Lexeme} (hls : Apart ls) :
    (cs.map Piece.outside).foldr extend ls = .word cs :: ls := by
  have hfirst {c : Char} (hc : isWordChar c) (rest : List Lexeme) :
      extend (.outside c) rest = joinWord c rest := by
    have hblank : isBlank c = false := by
      simp only [isWordChar, Bool.and_eq_true] at hc
      simpa using hc.1.1
    rw [extend, hblank, if_neg Bool.false_ne_true, if_pos hc]
  induction cs with
  | nil => exact absurd rfl hne
  | cons c cs ih =>
      rw [List.map_cons, List.foldr_cons, hfirst (hcs c List.mem_cons_self)]
      cases cs with
      | nil =>
          cases ls with
          | nil => rfl
          | cons l ls =>
              cases l with
              | word => exact hls.elim
              | _ => rfl
      | cons d cs =>
          rw [ih (by simp) fun c hc => hcs c (List.mem_cons_of_mem _ hc)]
          rfl

/-- A word is one token. -/
theorem lexes_word {w : String} (hne : w ≠ "") (hall : w.toList.all isWordChar) :
    Lexes w [wordToken w] := by
  have hw := List.all_eq_true.mp hall
  have hplain : Plain w := fun hquote => absurd (hw _ hquote) (by decide)
  refine ⟨_, .plain hplain, fun ls hls => ?_⟩
  rw [Cuts, foldr_extend_word (by simpa using hne) hw hls, tokenize, String.ofList_toList]
  rfl

/-- The characters that are a symbol by themselves. -/
def isSingle (c : Char) : Bool := isSymbolic c && pairs.all (·.head? ≠ some c)

theorem extend_single {c : Char} (h : isSingle c) (ls : List Lexeme) :
    extend (.outside c) ls = .symbol [c] :: ls := by
  obtain ⟨hsymbolic, hpairs⟩ := Bool.and_eq_true_iff.mp h
  have hblank : isBlank c = false := by
    rw [← Bool.not_eq_true]
    intro hblank
    rcases Bool.or_eq_true_iff.mp hblank with hc | hc <;>
    · obtain rfl := of_decide_eq_true hc
      exact absurd hsymbolic (by decide)
  rw [extend, hblank, if_neg Bool.false_ne_true, Leads.not_wordChar (by simp [hsymbolic]),
    if_neg Bool.false_ne_true]
  unfold joinSymbol
  split
  next cs rest =>
    have hnot : c :: cs ∉ pairs := fun hmem => by simpa using List.all_eq_true.mp hpairs _ hmem
    rw [if_neg hnot]
  next => rfl

theorem opens_opening : Opens "(" [.opening] :=
  ⟨by decide, fun ls => congrArg tokenize (extend_single rfl ls)⟩

theorem opens_closing : Opens ")" [.closing] :=
  ⟨by decide, fun ls => congrArg tokenize (extend_single rfl ls)⟩

theorem opens_dash : Opens "-" [.operation (.arithmetic .sub)] :=
  ⟨by decide, fun ls => congrArg tokenize (extend_single rfl ls)⟩

theorem opens_comma : Opens ", " [.comma] := ⟨by decide, fun _ => rfl⟩

theorem opens_not : Opens "NOT " [.not] := ⟨by decide, fun _ => rfl⟩

theorem opens_logical (op : Logical) :
    Opens (" " ++ logicalName op ++ " ") [.operation (.logical op)] := by
  cases op <;> exact ⟨by decide, fun _ => rfl⟩

theorem opens_comparison (op : Comparison) :
    Opens (" " ++ comparisonName op ++ " ") [.operation (.comparison op)] := by
  cases op <;> exact ⟨by decide, fun _ => rfl⟩

theorem opens_is : Opens " IS " [.is] := ⟨by decide, fun _ => rfl⟩

theorem lexes_modulo : Lexes "MOD" [.modulo] := lexes_word (by decide) rfl

theorem lexes_null : Lexes "NULL" [.null] := lexes_word (by decide) rfl

theorem lexes_isNull : Lexes " IS NULL" [.is, .null] := lexes_null.prepend opens_is

theorem lexes_isNotNull : Lexes " IS NOT NULL" [.is, .not, .null] :=
  (lexes_null.prepend opens_not).prepend opens_is

end Quarry.Sql
