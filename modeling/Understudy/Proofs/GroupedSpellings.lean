import Mathlib.Data.List.Forall2
import Understudy.Proofs.TextWords
import Understudy.Proofs.UnplacedTrees

namespace Understudy

/-- Two lists of words that are related, and the type that both spell. -/
abbrev Spelling : Type := List Word → List Word → TypeExpr → Prop

section Lists

variable {ι β : Type}

/-- Items, each with a semicolon behind it, which the last one does not need. Further semicolons can
stand around them. -/
inductive Ended : List (List Word) → List Word → Prop
  | nil : Ended [] []
  | skip {w : Word} {items : List (List Word)} {ws : List Word} (hw : w.1 = .semicolon)
      (h : Ended items ws) : Ended items (w :: ws)
  | last (item : List Word) : Ended [item] item
  | cons {w : Word} (item : List Word) {items : List (List Word)} {ws : List Word}
      (hw : w.1 = .semicolon) (h : Ended items ws) : Ended (item :: items) (item ++ w :: ws)

/-- Two lists that are related part by part, and the values of the parts in order. -/
inductive InParts (P : List ι → List ι → List β → Prop) : List ι → List ι → List β → Prop
  | nil : InParts P [] [] []
  | cons {l l' ls ls' : List ι} {xs ys : List β} (h : P l l' xs) (hrest : InParts P ls ls' ys) :
      InParts P (l ++ ls) (l' ++ ls') (xs ++ ys)

inductive NameList : List String → List Word → Prop
  | last (name : String) : NameList [name] [(.ident, name)]
  | cons (name : String) {comma : String} {names : List String} {ws : List Word}
      (h : NameList names ws) : NameList (name :: names) ((.ident, name) :: (.comma, comma) :: ws)

end Lists

inductive SpellsName : List Word → TypeExpr → Prop
  | bare (name : String) : SpellsName [(.ident, name)] (.name none name .nowhere)
  | qualified (qualifier name : String) {dot : String} :
      SpellsName [(.ident, qualifier), (.dot, dot), (.ident, name)]
        (.name (some qualifier) name .nowhere)

/-- An entry of a parameter list: the words of a type, and the name and the ellipsis that stand in
front of it. -/
structure EntrySpelling where
  name : Option String
  ellipsis : Option String
  type : List Word

def EntrySpelling.words (e : EntrySpelling) : List Word :=
  e.name.toList.map (.ident, ·) ++ (e.ellipsis.toList.map (.ellipsis, ·) ++ e.type)

inductive EntryList : List EntrySpelling → List Word → Prop
  | nil : EntryList [] []
  | last (e : EntrySpelling) : EntryList [e] e.words
  | cons (e : EntrySpelling) {comma : String} {es : List EntrySpelling} {ws : List Word}
      (h : EntryList es ws) : EntryList (e :: es) (e.words ++ (.comma, comma) :: ws)

section Types

variable (R : Spelling)

/-- The entry is this word and nothing else, but for parentheses around it. -/
def EntrySpelling.IsBare (name : String) (e : EntrySpelling) : Prop :=
  e.name = none ∧ e.ellipsis = none ∧ R e.type e.type (.name none name .nowhere)

/-- Names of parameters in groups. In each group all names but the last stand alone, and the last
one has the type. -/
inductive ParamGroups : List String → List (List Word) → List EntrySpelling → Prop
  | nil : ParamGroups [] [] []
  | cons {bare later : List String} {name : String} {t : List Word} {ts : List (List Word)}
      {es later' : List EntrySpelling} (hbare : List.Forall₂ (EntrySpelling.IsBare R) bare es)
      (h : ParamGroups later ts later') :
      ParamGroups (bare ++ name :: later) (t :: ts) (es ++ ⟨some name, none, t⟩ :: later')

/-- Parameters of one type, grouped in one way and in another. -/
inductive SharedParams : List EntrySpelling → List EntrySpelling → List (ParamExpr TypeExpr) → Prop
  | mk {names : List String} {ts ts' : List (List Word)} {es es' : List EntrySpelling}
      {e : TypeExpr} (h : ParamGroups R names ts es) (h' : ParamGroups R names ts' es')
      (ht : ∀ t ∈ ts, ∀ t' ∈ ts', R t t' e) :
      SharedParams es es' (names.map (⟨some ·, e, false, .nowhere⟩))

inductive BareParams : List EntrySpelling → List EntrySpelling → List (ParamExpr TypeExpr) → Prop
  | nil : BareParams [] [] []
  | last {ellipsis : Option String} {t t' : List Word} {e : TypeExpr} (h : R t t' e) :
      BareParams [⟨none, ellipsis, t⟩] [⟨none, ellipsis, t'⟩] [⟨none, e, ellipsis.isSome, .nowhere⟩]
  | cons {t t' : List Word} {e : TypeExpr} {es es' : List EntrySpelling}
      {ps : List (ParamExpr TypeExpr)} (h : R t t' e) (hrest : BareParams es es' ps) :
      BareParams (⟨none, none, t⟩ :: es) (⟨none, none, t'⟩ :: es')
        (⟨none, e, false, .nowhere⟩ :: ps)

/-- Parameters that all have names. An ellipsis can stand in front of the type of the last one,
which shares it with none. -/
inductive NamedParams : List EntrySpelling → List EntrySpelling → List (ParamExpr TypeExpr) → Prop
  | plain {es es' : List EntrySpelling} {ps : List (ParamExpr TypeExpr)}
      (h : InParts (SharedParams R) es es' ps) : NamedParams es es' ps
  | variadic (name : String) {ellipsis : String} {t t' : List Word} {e : TypeExpr}
      {es es' : List EntrySpelling} {ps : List (ParamExpr TypeExpr)}
      (h : InParts (SharedParams R) es es' ps) (ht : R t t' e) :
      NamedParams (es ++ [⟨some name, some ellipsis, t⟩]) (es' ++ [⟨some name, some ellipsis, t'⟩])
        (ps ++ [⟨some name, e, true, .nowhere⟩])

inductive SpellsEntries : List EntrySpelling → List EntrySpelling → List (ParamExpr TypeExpr) → Prop
  | bare {es es' : List EntrySpelling} {ps : List (ParamExpr TypeExpr)}
      (h : BareParams R es es' ps) : SpellsEntries es es' ps
  | named {es es' : List EntrySpelling} {ps : List (ParamExpr TypeExpr)}
      (h : NamedParams R es es' ps) : SpellsEntries es es' ps

inductive SpellsParams : List Word → List Word → List (ParamExpr TypeExpr) → Prop
  | mk {x y : String} {es es' : List EntrySpelling} {ws ws' : List Word}
      {ps : List (ParamExpr TypeExpr)} (hws : EntryList es ws) (hws' : EntryList es' ws')
      (h : SpellsEntries R es es' ps) :
      SpellsParams ((.lparen, x) :: (ws ++ [(.rparen, y)]))
        ((.lparen, x) :: (ws' ++ [(.rparen, y)])) ps

/-- One result without parentheses begins like a type that has none around it. -/
inductive SpellsResults : List Word → List Word → List (ParamExpr TypeExpr) → Prop
  | none : SpellsResults [] [] []
  | single {t t' : List Word} {e : TypeExpr} (h : R t t' e)
      (hw : ∀ w ∈ t.head?, Reader.startsType w.1 = true)
      (hw' : ∀ w ∈ t'.head?, Reader.startsType w.1 = true) :
      SpellsResults t t' [⟨.none, e, false, .nowhere⟩]
  | list {ws ws' : List Word} {ps : List (ParamExpr TypeExpr)} (h : SpellsParams R ws ws' ps)
      (hlast : ∀ p ∈ ps, p.variadic = false) : SpellsResults ws ws' ps

inductive SpellsSignature : List Word → List Word → SignatureExpr TypeExpr → Prop
  | mk {us us' vs vs' : List Word} {ps rs : List (ParamExpr TypeExpr)}
      (hin : SpellsParams R us us' ps) (hout : SpellsResults R vs vs' rs) :
      SpellsSignature (us ++ vs) (us' ++ vs') ⟨ps, rs, .nowhere⟩

inductive SpellsElement : List (List Word) → List (List Word) → List (ElementExpr TypeExpr) → Prop
  | method (name : String) {ws ws' : List Word} {sig : SignatureExpr TypeExpr}
      (h : SpellsSignature R ws ws' sig) :
      SpellsElement [(.ident, name) :: ws] [(.ident, name) :: ws'] [.method name sig .nowhere]
  | embedded {ws : List Word} {e : TypeExpr} (h : SpellsName ws e) :
      SpellsElement [ws] [ws] [.embedded e]

def tagWords (tag : Option String) : List Word := tag.toList.map (.str, ·)

/-- Names of fields in groups, each group with the type and perhaps a tag. -/
inductive FieldGroups : List String → List (List Word) → List (List Word) → Prop
  | nil : FieldGroups [] [] []
  | cons {group later : List String} {ns t : List Word} {ts items : List (List Word)}
      (tag : Option String) (hnames : NameList group ns) (h : FieldGroups later ts items) :
      FieldGroups (group ++ later) (t :: ts) ((ns ++ (t ++ tagWords tag)) :: items)

def StartsEmbedded (t : List Word) : Prop := ∀ w ∈ t.head?, w.1 = .star ∨ w.1 = .ident

inductive SpellsFields : List (List Word) → List (List Word) → List (FieldExpr TypeExpr) → Prop
  | embedded {t t' : List Word} {e : TypeExpr} (tag tag' : Option String) (h : R t t' e)
      (hw : StartsEmbedded t) (hw' : StartsEmbedded t') :
      SpellsFields [t ++ tagWords tag] [t' ++ tagWords tag'] [⟨none, e, .nowhere⟩]
  | named {names : List String} {ts ts' items items' : List (List Word)} {e : TypeExpr}
      (h : FieldGroups names ts items) (h' : FieldGroups names ts' items')
      (ht : ∀ t ∈ ts, ∀ t' ∈ ts', R t t' e) :
      SpellsFields items items' (names.map (⟨some ·, e, .nowhere⟩))

/-- Two spellings of a type whose parts are related by `R`. -/
inductive SpellsOver : Spelling
  | name {ws : List Word} {e : TypeExpr} (h : SpellsName ws e) : SpellsOver ws ws e
  | pointer {x : String} {ws ws' : List Word} {e : TypeExpr} (h : R ws ws' e) :
      SpellsOver ((.star, x) :: ws) ((.star, x) :: ws') (.pointer e .nowhere)
  | slice {x y : String} {ws ws' : List Word} {e : TypeExpr} (h : R ws ws' e) :
      SpellsOver ((.lbracket, x) :: (.rbracket, y) :: ws) ((.lbracket, x) :: (.rbracket, y) :: ws')
        (.slice e .nowhere)
  | array {x digits y : String} {length : UInt64} {ws ws' : List Word} {e : TypeExpr}
      (hlength : Literal.arrayLength? (Literal.ungroup digits) = some length) (h : R ws ws' e) :
      SpellsOver ((.lbracket, x) :: (.int, digits) :: (.rbracket, y) :: ws)
        ((.lbracket, x) :: (.int, digits) :: (.rbracket, y) :: ws') (.array length e .nowhere)
  | map {x y z : String} {ks ks' ws ws' : List Word} {k e : TypeExpr} (hk : R ks ks' k)
      (h : R ws ws' e) :
      SpellsOver ((.mapWord, x) :: (.lbracket, y) :: (ks ++ (.rbracket, z) :: ws))
        ((.mapWord, x) :: (.lbracket, y) :: (ks' ++ (.rbracket, z) :: ws')) (.map k e .nowhere)
  | chan {x : String} {ws ws' : List Word} {e : TypeExpr} (h : R ws ws' e)
      (hw : ∀ w ∈ ws.head?, w.1 ≠ .arrow) (hw' : ∀ w ∈ ws'.head?, w.1 ≠ .arrow) :
      SpellsOver ((.chanWord, x) :: ws) ((.chanWord, x) :: ws') (.chan .both e .nowhere)
  | send {x y : String} {ws ws' : List Word} {e : TypeExpr} (h : R ws ws' e) :
      SpellsOver ((.chanWord, x) :: (.arrow, y) :: ws) ((.chanWord, x) :: (.arrow, y) :: ws')
        (.chan .send e .nowhere)
  | recv {x y : String} {ws ws' : List Word} {e : TypeExpr} (h : R ws ws' e) :
      SpellsOver ((.arrow, x) :: (.chanWord, y) :: ws) ((.arrow, x) :: (.chanWord, y) :: ws')
        (.chan .recv e .nowhere)
  | func {x : String} {ws ws' : List Word} {sig : SignatureExpr TypeExpr}
      (h : SpellsSignature R ws ws' sig) :
      SpellsOver ((.funcWord, x) :: ws) ((.funcWord, x) :: ws') (.func sig .nowhere)
  | interface {x y z : String} {items items' : List (List Word)} {ws ws' : List Word}
      {elements : List (ElementExpr TypeExpr)} (hws : Ended items ws) (hws' : Ended items' ws')
      (h : InParts (SpellsElement R) items items' elements) :
      SpellsOver ((.interfaceWord, x) :: (.lbrace, y) :: (ws ++ [(.rbrace, z)]))
        ((.interfaceWord, x) :: (.lbrace, y) :: (ws' ++ [(.rbrace, z)]))
        (.interface elements .nowhere)
  | struct {x y z : String} {items items' : List (List Word)} {ws ws' : List Word}
      {fields : List (FieldExpr TypeExpr)} (hws : Ended items ws) (hws' : Ended items' ws')
      (h : InParts (SpellsFields R) items items' fields) :
      SpellsOver ((.structWord, x) :: (.lbrace, y) :: (ws ++ [(.rbrace, z)]))
        ((.structWord, x) :: (.lbrace, y) :: (ws' ++ [(.rbrace, z)])) (.struct fields .nowhere)
  | parens {x y : String} {ws ws' : List Word} {e : TypeExpr} (h : R ws ws' e) :
      SpellsOver ((.lparen, x) :: (ws ++ [(.rparen, y)]))
        ((.lparen, x) :: (ws' ++ [(.rparen, y)])) e

end Types

def SpellsWithin : Nat → Spelling
  | 0 => fun _ _ _ ↦ False
  | n + 1 => SpellsOver (SpellsWithin n)

def SpellsType : Spelling := fun ws ws' e ↦ ∃ n, SpellsWithin n ws ws' e

section Files

/-- Specs in clauses that begin with this word: one to a clause, or any number of them in
parentheses. -/
inductive InClauses (word : TokenKind) : List (List Word) → List (List Word) → Prop
  | nil : InClauses word [] []
  | single {x : String} (spec : List Word) {specs clauses : List (List Word)}
      (h : InClauses word specs clauses) :
      InClauses word (spec :: specs) (((word, x) :: spec) :: clauses)
  | group {x y z : String} {group specs clauses : List (List Word)} {body : List Word}
      (hbody : Ended group body) (h : InClauses word specs clauses) :
      InClauses word (group ++ specs)
        (((word, x) :: (.lparen, y) :: (body ++ [(.rparen, z)])) :: clauses)

inductive SpellsImport : List Word → ImportSpec → Prop
  | mk (qualifier : Option String) {literal : String}
      (hpath : (Literal.string literal).isEmpty = false) :
      SpellsImport (qualifier.toList.map (.ident, ·) ++ [(.str, literal)])
        ⟨qualifier, Literal.string literal, .nowhere⟩

inductive SpellsImports : List (List Word) → List (List Word) → List ImportSpec → Prop
  | mk {specs clauses clauses' : List (List Word)} {imports : List ImportSpec}
      (hspecs : List.Forall₂ SpellsImport specs imports) (h : InClauses .importWord specs clauses)
      (h' : InClauses .importWord specs clauses') : SpellsImports clauses clauses' imports

inductive SpellsSpec : List (List Word) → List (List Word) → List Decl → Prop
  | mk (name : String) {ws ws' : List Word} {e : TypeExpr} (h : SpellsType ws ws' e) :
      SpellsSpec [(.ident, name) :: ws] [(.ident, name) :: ws'] [.type name e .nowhere]

inductive SpellsDecls : List (List Word) → List (List Word) → List Decl → Prop
  | func {x : String} (name : String) {ws ws' : List Word} {sig : SignatureExpr TypeExpr}
      (h : SpellsSignature SpellsType ws ws' sig) :
      SpellsDecls [(.funcWord, x) :: (.ident, name) :: ws] [(.funcWord, x) :: (.ident, name) :: ws']
        [.func name sig .nowhere]
  | types {specs specs' clauses clauses' : List (List Word)} {decls : List Decl}
      (hspecs : InParts SpellsSpec specs specs' decls) (h : InClauses .typeWord specs clauses)
      (h' : InClauses .typeWord specs' clauses') : SpellsDecls clauses clauses' decls

/-- Two spellings of a file: the package clause, the imports, the declarations, and what marks
the end of the text. -/
inductive SpellsFile : List Word → List Word → SourceFile → Prop
  | mk {x package : String} {imports : List ImportSpec} {decls : List Decl}
      {is is' ds ds' : List (List Word)} {ws ws' eof eof' : List Word}
      (himports : SpellsImports is is' imports) (hdecls : InParts SpellsDecls ds ds' decls)
      (hws : Ended ([(.packageWord, x), (.ident, package)] :: (is ++ ds)) ws)
      (hws' : Ended ([(.packageWord, x), (.ident, package)] :: (is' ++ ds')) ws')
      (heof : ∀ w ∈ eof.head?, w.1 = .eof) (heof' : ∀ w ∈ eof'.head?, w.1 = .eof) :
      SpellsFile (ws ++ eof) (ws' ++ eof') ⟨package, imports, decls⟩

end Files

/-- Two texts of a file that differ in what is written in groups. -/
def Regroups (ws ws' : List Word) : Prop := ∃ file, SpellsFile ws ws' file

section Expansions

variable {R : Spelling} {names group : List String} {name : String} {t ns body : List Word}
    {e : TypeExpr} {specs : List (List Word)} {word : TokenKind}

/-- Names that share the type behind the last of them. -/
def groupedEntries (names : List String) (name : String) (t : List Word) : List EntrySpelling :=
  names.map (fun n ↦ ⟨none, none, [(.ident, n)]⟩) ++ [⟨some name, none, t⟩]

def ownEntries (names : List String) (t : List Word) : List EntrySpelling :=
  names.map (⟨some ·, none, t⟩)

def ownFields (names : List String) (t : List Word) (tag : String → Option String) :
    List (List Word) :=
  names.map fun n ↦ (.ident, n) :: (t ++ tagWords (tag n))

def ownClauses (word : TokenKind) (x : String) (specs : List (List Word)) : List (List Word) :=
  specs.map ((word, x) :: ·)

def groupClause (word : TokenKind) (x y z : String) (body : List Word) : List Word :=
  (word, x) :: (.lparen, y) :: (body ++ [(.rparen, z)])

theorem ended_flatMap (items : List (List Word)) :
    Ended items (items.flatMap (· ++ [(.semicolon, ";")])) := by
  induction items with
  | nil => exact .nil
  | cons item items ih =>
    rw [List.flatMap_cons, List.append_assoc]
    exact .cons item rfl ih

theorem paramGroups_own (names : List String) (t : List Word) :
    ParamGroups R names (names.map fun _ ↦ t) (ownEntries names t) := by
  induction names with
  | nil => exact .nil
  | cons name names ih =>
    have hcons : ParamGroups R ([] ++ name :: names) (t :: _) ([] ++ ⟨some name, none, t⟩ :: _) :=
      .cons .nil ih
    exact hcons

theorem paramGroups_grouped (hname : ∀ n, R [(.ident, n)] [(.ident, n)] (.name none n .nowhere)) :
    ParamGroups R (names ++ [name]) [t] (groupedEntries names name t) := by
  refine .cons ?_ .nil
  rw [List.forall₂_map_right_iff, List.forall₂_same]
  exact fun n _ ↦ ⟨rfl, rfl, hname n⟩

theorem sharedParams_expanded (hname : ∀ n, R [(.ident, n)] [(.ident, n)] (.name none n .nowhere))
    (ht : R t t e) : SharedParams R (groupedEntries names name t) (ownEntries (names ++ [name]) t)
      ((names ++ [name]).map (⟨some ·, e, false, .nowhere⟩)) := by
  refine .mk (paramGroups_grouped hname) (paramGroups_own _ t) fun u hu u' hu' ↦ ?_
  obtain rfl := List.mem_singleton.1 hu
  obtain ⟨-, -, rfl⟩ := List.mem_map.1 hu'
  exact ht

theorem fieldGroups_own (names : List String) (t : List Word) (tag : String → Option String) :
    FieldGroups names (names.map fun _ ↦ t) (ownFields names t tag) := by
  induction names with
  | nil => exact .nil
  | cons name names ih =>
    have hcons : FieldGroups ([name] ++ names) (t :: _) (_ :: _) := .cons (tag name) (.last name) ih
    exact hcons

theorem fieldGroups_grouped (hns : NameList names ns) (tag : Option String) :
    FieldGroups names [t] [ns ++ (t ++ tagWords tag)] := by
  have hgroup : FieldGroups (names ++ []) [t] _ := .cons tag hns .nil
  rwa [List.append_nil] at hgroup

theorem spellsFields_expanded (hns : NameList names ns) (ht : R t t e) (tag : Option String)
    (tags : String → Option String) :
    SpellsFields R [ns ++ (t ++ tagWords tag)] (ownFields names t tags)
      (names.map (⟨some ·, e, .nowhere⟩)) := by
  refine .named (fieldGroups_grouped hns tag) (fieldGroups_own names t tags) fun u hu u' hu' ↦ ?_
  obtain rfl := List.mem_singleton.1 hu
  obtain ⟨-, -, rfl⟩ := List.mem_map.1 hu'
  exact ht

theorem inClauses_own (word : TokenKind) (x : String) (specs : List (List Word)) :
    InClauses word specs (ownClauses word x specs) := by
  induction specs with
  | nil => exact .nil
  | cons spec specs ih => exact .single spec ih

theorem inClauses_grouped (hbody : Ended specs body) (x y z : String) :
    InClauses word specs [groupClause word x y z body] := by
  have hgroup : InClauses word (specs ++ []) [groupClause word x y z body] := .group hbody .nil
  rwa [List.append_nil] at hgroup

end Expansions

section Symm

theorem InParts.symm {ι β : Type} {P : List ι → List ι → List β → Prop} {l l' : List ι}
    {xs : List β} (hP : ∀ l l' xs, P l l' xs → P l' l xs) (h : InParts P l l' xs) :
    InParts P l' l xs := by
  induction h with
  | nil => exact .nil
  | cons h _ ih => exact .cons (hP _ _ _ h) ih

theorem forall_mem_symm {R : Spelling} (hR : ∀ ws ws' e, R ws ws' e → R ws' ws e)
    {ts ts' : List (List Word)} {e : TypeExpr} (h : ∀ t ∈ ts, ∀ t' ∈ ts', R t t' e) :
    ∀ t ∈ ts', ∀ t' ∈ ts, R t t' e :=
  fun t ht t' ht' ↦ hR t' t e (h t' ht' t ht)

variable {R : Spelling} (hR : ∀ ws ws' e, R ws ws' e → R ws' ws e) {ws ws' : List Word}

include hR

theorem SharedParams.symm {es es' : List EntrySpelling} {ps : List (ParamExpr TypeExpr)}
    (h : SharedParams R es es' ps) : SharedParams R es' es ps := by
  obtain ⟨h, h', ht⟩ := h
  exact ⟨h', h, forall_mem_symm hR ht⟩

theorem BareParams.symm {es es' : List EntrySpelling} {ps : List (ParamExpr TypeExpr)}
    (h : BareParams R es es' ps) : BareParams R es' es ps := by
  induction h with
  | nil => exact .nil
  | last h => exact .last (hR _ _ _ h)
  | cons h _ ih => exact .cons (hR _ _ _ h) ih

theorem NamedParams.symm {es es' : List EntrySpelling} {ps : List (ParamExpr TypeExpr)}
    (h : NamedParams R es es' ps) : NamedParams R es' es ps := by
  cases h with
  | plain h => exact .plain (h.symm fun _ _ _ ↦ .symm hR)
  | variadic name h ht => exact .variadic name (h.symm fun _ _ _ ↦ .symm hR) (hR _ _ _ ht)

theorem SpellsEntries.symm {es es' : List EntrySpelling} {ps : List (ParamExpr TypeExpr)}
    (h : SpellsEntries R es es' ps) : SpellsEntries R es' es ps := by
  cases h with
  | bare h => exact .bare (h.symm hR)
  | named h => exact .named (h.symm hR)

theorem SpellsParams.symm {ps : List (ParamExpr TypeExpr)} (h : SpellsParams R ws ws' ps) :
    SpellsParams R ws' ws ps := by
  obtain ⟨hws, hws', h⟩ := h
  exact ⟨hws', hws, h.symm hR⟩

theorem SpellsResults.symm {ps : List (ParamExpr TypeExpr)} (h : SpellsResults R ws ws' ps) :
    SpellsResults R ws' ws ps := by
  cases h with
  | none => exact .none
  | single h hw hw' => exact .single (hR _ _ _ h) hw' hw
  | list h hlast => exact .list (h.symm hR) hlast

theorem SpellsSignature.symm {sig : SignatureExpr TypeExpr} (h : SpellsSignature R ws ws' sig) :
    SpellsSignature R ws' ws sig := by
  obtain ⟨hin, hout⟩ := h
  exact ⟨hin.symm hR, hout.symm hR⟩

theorem SpellsElement.symm {items items' : List (List Word)}
    {elements : List (ElementExpr TypeExpr)} (h : SpellsElement R items items' elements) :
    SpellsElement R items' items elements := by
  cases h with
  | method name h => exact .method name (h.symm hR)
  | embedded h => exact .embedded h

theorem SpellsFields.symm {items items' : List (List Word)} {fields : List (FieldExpr TypeExpr)}
    (h : SpellsFields R items items' fields) : SpellsFields R items' items fields := by
  cases h with
  | embedded tag tag' h hw hw' => exact .embedded tag' tag (hR _ _ _ h) hw' hw
  | named h h' ht => exact .named h' h (forall_mem_symm hR ht)

theorem SpellsOver.symm {e : TypeExpr} (h : SpellsOver R ws ws' e) : SpellsOver R ws' ws e := by
  cases h with
  | name h => exact .name h
  | pointer h => exact .pointer (hR _ _ _ h)
  | slice h => exact .slice (hR _ _ _ h)
  | array hlength h => exact .array hlength (hR _ _ _ h)
  | map hk h => exact .map (hR _ _ _ hk) (hR _ _ _ h)
  | chan h hw hw' => exact .chan (hR _ _ _ h) hw' hw
  | send h => exact .send (hR _ _ _ h)
  | recv h => exact .recv (hR _ _ _ h)
  | func h => exact .func (h.symm hR)
  | interface hws hws' h => exact .interface hws' hws (h.symm fun _ _ _ ↦ .symm hR)
  | struct hws hws' h => exact .struct hws' hws (h.symm fun _ _ _ ↦ .symm hR)
  | parens h => exact .parens (hR _ _ _ h)

omit hR

theorem SpellsWithin.symm {n : Nat} {e : TypeExpr} (h : SpellsWithin n ws ws' e) :
    SpellsWithin n ws' ws e := by
  induction n generalizing ws ws' e with
  | zero => exact h
  | succ n ih => exact @SpellsOver.symm (SpellsWithin n) (fun _ _ _ h ↦ ih h) _ _ _ h

theorem SpellsType.symm {e : TypeExpr} (h : SpellsType ws ws' e) : SpellsType ws' ws e := by
  obtain ⟨n, h⟩ := h
  exact ⟨n, h.symm⟩

theorem SpellsSpec.symm {specs specs' : List (List Word)} {decls : List Decl}
    (h : SpellsSpec specs specs' decls) : SpellsSpec specs' specs decls := by
  obtain ⟨name, h⟩ := h
  exact ⟨name, h.symm⟩

theorem SpellsDecls.symm {clauses clauses' : List (List Word)} {decls : List Decl}
    (h : SpellsDecls clauses clauses' decls) : SpellsDecls clauses' clauses decls := by
  cases h with
  | func name h => exact .func name (h.symm fun _ _ _ h ↦ h.symm)
  | types hspecs h h' => exact .types (hspecs.symm fun _ _ _ ↦ SpellsSpec.symm) h' h

theorem SpellsFile.symm {file : SourceFile} (h : SpellsFile ws ws' file) :
    SpellsFile ws' ws file := by
  obtain ⟨⟨hspecs, h, h'⟩, hdecls, hws, hws', heof, heof'⟩ := h
  exact ⟨⟨hspecs, h', h⟩, hdecls.symm fun _ _ _ ↦ SpellsDecls.symm, hws', hws, heof', heof⟩

end Symm

end Understudy
