import Understudy.Proofs.ReaderReplies
import Understudy.Proofs.WordReading

namespace Understudy.Reader

section Rounds

variable {α : Type}

/-- One entry of a parameter list, and with a comma behind it the entries of the next rounds. -/
def paramRound (p : Reader TypeExpr) (rest : Reader (List (ParamExpr TypeExpr))) :
    Reader (List (ParamExpr TypeExpr)) := do
  let c ← cursor
  if c.isAt .rparen || c.isAt .eof then return []
  let entry ← paramEntry p
  if ← eat .comma then return entry :: (← rest)
  return [entry]

def bodyRound (what : String) (item rest : Reader (List α)) : Reader (List α) := do
  skipSemicolons
  let c ← cursor
  if c.isAt .rbrace || c.isAt .eof then return []
  let items ← item
  terminator what
  return items ++ (← rest)

def nameRound (rest : Reader (List (String × Span))) : Reader (List (String × Span)) := do
  if ← eat .comma then
    let name ← ident "expected field name after `,`"
    return name :: (← rest)
  return []

def groupRound (what : String) (item : Reader α) (rest : Reader (Clause α)) : Reader (Clause α) :=
  do
  skipSemicolons
  let c ← cursor
  if c.isAt .rparen || c.isAt .eof then return ⟨[], none⟩
  match ← attempt item with
  | .error d => return ⟨[], some d⟩
  | .ok x =>
    match ← attempt (terminator what) with
    | .error d => return ⟨[x], some d⟩
    | .ok () =>
      let later ← rest
      return ⟨x :: later.items, later.problem⟩

/-- One clause, behind a problem the search for the next one, and the clauses of the next rounds. -/
def clauseRound (done : Cursor → Bool) (next : Reader (Clause α))
    (rest : Reader (List α × List Diagnostic)) : Reader (List α × List Diagnostic) := do
  skipSemicolons
  if done (← cursor) then return ([], [])
  let first ← next
  if first.problem.isSome then resume
  let (items, problems) ← rest
  return (first.items ++ items, first.problem.toList ++ problems)

end Rounds

/-- A relation between two readers, one at a cursor and one at what `γ` makes of that cursor, which
sequences of readers respect. The cursors look alike to the readers: the next token is the same, and
behind a word the one after it is. -/
structure Walks (R : ∀ α : Type, Cursor → Reader α → Reader α → Prop) (γ : Cursor → Cursor) :
    Prop where
  head? (c : Cursor) : (γ c).tokens.head? = c.tokens.head?
  following? (c : Cursor) : c.isAt .ident = true → (γ c).following? = c.following?
  lastStop (c : Cursor) : (γ c).lastStop = c.lastStop
  pure {α : Type} (c : Cursor) (a : α) : R α c (pure a) (pure a)
  bind {α β : Type} {c : Cursor} {p q : Reader α} {f g : α → Reader β} :
    R α c p q → (∀ a d, R β d (f a) (g a)) → R β c (p >>= f) (q >>= g)
  cursor {β : Type} {c : Cursor} {f g : Cursor → Reader β} :
    R β c (f c) (g (γ c)) → R β c (Reader.cursor >>= f) (Reader.cursor >>= g)
  attempt {α : Type} {c : Cursor} {p q : Reader α} :
    R α c p q → R (Except Diagnostic α) c (Reader.attempt p) (Reader.attempt q)
  fault {α : Type} (c : Cursor) (e : Fault) : R α c (Reader.fault e) (Reader.fault e)
  reject {α : Type} (c : Cursor) (message : String) : R α c (Reader.reject message)
      (Reader.reject message)
  rejected {α : Type} (c : Cursor) (d : Diagnostic) : R α c (fun c ↦ .rejected d c)
      (fun c ↦ .rejected d c)
  eat (c : Cursor) (kind : TokenKind) : R Bool c (Reader.eat kind) (Reader.eat kind)
  expect (c : Cursor) (kind : TokenKind) (message : String) :
    R Token c (Reader.expect kind message) (Reader.expect kind message)
  skipSemicolons (c : Cursor) : R Unit c Reader.skipSemicolons Reader.skipSemicolons

namespace Walks

variable {R : ∀ α : Type, Cursor → Reader α → Reader α → Prop} {γ : Cursor → Cursor} {α β : Type}
    {c : Cursor} {p q : Reader α}

theorem isAt (h : Walks R γ) (c : Cursor) (kind : TokenKind) : (γ c).isAt kind = c.isAt kind := by
  have hhead := h.head? c
  unfold Cursor.isAt
  cases hc : c.tokens <;> cases hγ : (γ c).tokens <;> simp_all

theorem start (h : Walks R γ) (c : Cursor) : (γ c).start = c.start := by
  rw [Cursor.start, Cursor.span?, h.head?]
  rfl

theorem ident_and (h : Walks R γ) (c : Cursor) {b b' : Bool}
    (hb : (γ c).following? = c.following? → b' = b) :
    ((γ c).isAt .ident && b') = (c.isAt .ident && b) := by
  rw [h.isAt]
  cases hc : c.isAt .ident with
  | false => rfl
  | true => rw [hb (h.following? c hc)]

theorem ite {b b' : Bool} {p' q' : Reader α} (hb : b' = b) (hp : R α c p q) (hp' : R α c p' q') :
    R α c (if b then p else p') (if b' then q else q') := by
  subst hb
  cases b'
  · exact hp'
  · exact hp

theorem bind_pure (h : Walks R γ) {f : α → β} (hp : R α c p q) :
    R β c (do let a ← p; return f a) (do let a ← q; return f a) := h.bind hp fun _ d ↦ h.pure d _

theorem map (h : Walks R γ) (hp : R α c p q) (f : α → β) : R β c (f <$> p) (f <$> q) := by
  rw [← bind_pure_comp, ← bind_pure_comp]
  exact h.bind_pure hp

theorem ident (h : Walks R γ) (c : Cursor) (message : String) :
    R (String × Span) c (Reader.ident message) (Reader.ident message) :=
  h.bind_pure (h.expect c .ident message)

theorem range (h : Walks R γ) (c : Cursor) (start stop : Nat) :
    R Span c (Reader.range start stop) (Reader.range start stop) := by
  unfold Reader.range
  split
  · exact h.pure c _
  · exact h.fault c _

theorem join (h : Walks R γ) (c : Cursor) (s t : Span) :
    R Span c (Reader.join s t) (Reader.join s t) :=
  h.range c _ _

theorem terminator (h : Walks R γ) (c : Cursor) (what : String) :
    R Unit c (Reader.terminator what) (Reader.terminator what) := by
  refine h.bind (h.eat c _) fun taken d ↦ ite rfl (h.pure d ())
    (h.cursor (ite ?_ (h.pure d ()) (h.reject d _)))
  simp only [h.isAt]

section Types

variable {p q : Reader TypeExpr}

theorem typeName (h : Walks R γ) (c : Cursor) : R TypeExpr c Reader.typeName Reader.typeName :=
  h.bind (h.ident c _) fun _ d ↦ h.bind (h.eat d _) fun _ d ↦
    ite rfl (h.bind (h.ident d _) fun _ d ↦ h.bind_pure (h.join d _ _)) (h.pure d _)

theorem spanning (h : Walks R γ) (hp : ∀ c, R TypeExpr c p q) (c : Cursor) (start : Nat)
    (make : TypeExpr → Span → TypeExpr) :
    R TypeExpr c (Reader.spanning p start make) (Reader.spanning q start make) :=
  h.bind (hp c) fun _ d ↦ h.bind_pure (h.range d _ _)

theorem entryTail (h : Walks R γ) (hp : ∀ c, R TypeExpr c p q) (c : Cursor) (start : Nat)
    (name : Option String) :
    R _ c (Reader.entryTail p start name) (Reader.entryTail q start name) :=
  h.bind (h.eat c _) fun _ d ↦ h.bind (hp d) fun _ d ↦ h.bind_pure (h.range d _ _)

theorem paramEntry (h : Walks R γ) (hp : ∀ c, R TypeExpr c p q) (c : Cursor) :
    R _ c (Reader.paramEntry p) (Reader.paramEntry q) := by
  refine h.cursor ?_
  dsimp only
  rw [h.start]
  refine ite (h.ident_and c fun hnext ↦ by rw [hnext]) ?_ ?_
  · exact h.bind (h.map (h.ident c _) _) fun name d ↦ h.entryTail hp d c.start name
  · exact h.bind (h.pure c none) fun name d ↦ h.entryTail hp d c.start name

theorem paramRound (h : Walks R γ) (hp : ∀ c, R TypeExpr c p q)
    {rest later : Reader (List (ParamExpr TypeExpr))} (hrest : ∀ c, R _ c rest later) (c : Cursor) :
    R _ c (Reader.paramRound p rest) (Reader.paramRound q later) := by
  refine h.cursor (ite (by simp only [h.isAt]) (h.pure c _) ?_)
  exact h.bind (h.paramEntry hp c) fun _ d ↦ h.bind (h.eat d _) fun _ d ↦
    ite rfl (h.bind_pure (hrest d)) (h.pure d _)

theorem params (h : Walks R γ)
    (hparams : ∀ c, R _ c (bounded (Reader.paramEntries p)) (bounded (Reader.paramEntries q)))
    (c : Cursor) : R _ c (Reader.params p) (Reader.params q) := by
  refine h.bind (h.expect c _ _) fun _ d ↦ h.bind (hparams d) fun entries d ↦
    h.bind (h.expect d _ _) fun _ d ↦ ?_
  split
  · exact h.pure d _
  · exact h.rejected d _

theorem results (h : Walks R γ) (hp : ∀ c, R TypeExpr c p q)
    (hparams : ∀ c, R _ c (bounded (Reader.paramEntries p)) (bounded (Reader.paramEntries q)))
    (c : Cursor) : R _ c (Reader.results p) (Reader.results q) :=
  h.cursor <| ite (h.isAt c _) (h.params hparams c) <|
    ite (by rw [h.head?]) (h.bind_pure (hp c)) (h.pure c _)

theorem signature (h : Walks R γ) (hp : ∀ c, R TypeExpr c p q)
    (hparams : ∀ c, R _ c (bounded (Reader.paramEntries p)) (bounded (Reader.paramEntries q)))
    (c : Cursor) : R _ c (Reader.signature p) (Reader.signature q) := by
  refine h.cursor ?_
  dsimp only
  rw [h.start]
  refine h.bind (h.params hparams c) fun inputs d ↦ h.bind (h.results hp hparams d)
    fun outputs d ↦ ?_
  split
  · exact h.rejected d _
  · refine h.cursor ?_
    rw [h.lastStop]
    exact h.bind_pure (h.range d _ _)

theorem bodyRound (h : Walks R γ) {what : String} {item item' rest rest' : Reader (List α)}
    (hitem : ∀ c, R _ c item item') (hrest : ∀ c, R _ c rest rest') (c : Cursor) :
    R _ c (Reader.bodyRound what item rest) (Reader.bodyRound what item' rest') := by
  refine h.bind (h.skipSemicolons c) fun _ d ↦
    h.cursor (ite (by simp only [h.isAt]) (h.pure d _) ?_)
  exact h.bind (hitem d) fun _ d ↦ h.bind (h.terminator d what) fun _ d ↦ h.bind_pure (hrest d)

theorem element (h : Walks R γ) (hp : ∀ c, R TypeExpr c p q)
    (hparams : ∀ c, R _ c (bounded (Reader.paramEntries p)) (bounded (Reader.paramEntries q)))
    (c : Cursor) : R _ c (Reader.element p) (Reader.element q) := by
  refine h.cursor
    (ite (h.ident_and c fun hnext ↦ by rw [hnext]) ?_ (ite (h.isAt c _) ?_ (h.reject c _)))
  · exact h.bind (h.ident c _) fun _ d ↦ h.bind (h.signature hp hparams d) fun _ d ↦
      h.bind_pure (h.join d _ _)
  · exact h.bind_pure (h.typeName c)

theorem nameRound (h : Walks R γ) {rest rest' : Reader (List (String × Span))}
    (hrest : ∀ c, R _ c rest rest') (c : Cursor) :
    R _ c (Reader.nameRound rest) (Reader.nameRound rest') :=
  h.bind (h.eat c _) fun _ d ↦ ite rfl (h.bind (h.ident d _) fun _ d ↦ h.bind_pure (hrest d))
    (h.pure d _)

theorem namedFields (h : Walks R γ) (type : TypeExpr) (names : List (String × Span)) (c : Cursor) :
    R _ c (Reader.namedFields type names) (Reader.namedFields type names) := by
  induction names generalizing c with
  | nil => exact h.pure c _
  | cons name names ih => exact h.bind (h.join c _ _) fun _ d ↦ h.bind_pure (ih d)

theorem fieldGroup (h : Walks R γ) (hp : ∀ c, R TypeExpr c p q)
    (hnames : ∀ c, R _ c (bounded Reader.fieldNames) (bounded Reader.fieldNames)) (c : Cursor) :
    R _ c (Reader.fieldGroup p) (Reader.fieldGroup q) := by
  refine h.cursor (ite ?_ ?_ ?_)
  · rw [h.isAt]
    exact congrArg _ (h.ident_and c fun hnext ↦ by rw [hnext])
  · exact h.bind (hp c) fun _ d ↦ h.bind (h.pure d _) fun _ d ↦ h.bind_pure (h.eat d _)
  · refine h.bind (h.ident c _) fun first d ↦ h.bind (hnames d) fun names d ↦
      h.bind (hp d) fun type d ↦ ?_
    exact h.bind (h.namedFields type _ d) fun _ d ↦ h.bind_pure (h.eat d _)

/-- What one round of the nesting needs to be known of the types in it: themselves, and the lists
that they are in. -/
structure Nests (R : ∀ α : Type, Cursor → Reader α → Reader α → Prop) (p q : Reader TypeExpr) :
    Prop where
  type (c : Cursor) : R _ c p q
  params (c : Cursor) : R _ c (bounded (paramEntries p)) (bounded (paramEntries q))
  elements (c : Cursor) : R _ c
      (bounded (bodyItems "interface element" ((fun e ↦ [e]) <$> Reader.element p)))
    (bounded (bodyItems "interface element" ((fun e ↦ [e]) <$> Reader.element q)))
  fields (c : Cursor) : R _ c (bounded (bodyItems "struct field" (Reader.fieldGroup p)))
    (bounded (bodyItems "struct field" (Reader.fieldGroup q)))

theorem interfaceType (h : Walks R γ) (hn : Nests R p q) (c : Cursor) :
    R _ c (Reader.interfaceType p) (Reader.interfaceType q) :=
  h.bind (h.expect c _ _) fun _ d ↦ h.bind (h.expect d _ _) fun _ d ↦
    h.bind (hn.elements d) fun _ d ↦
    h.bind (h.expect d _ _) fun _ d ↦ h.bind_pure (h.range d _ _)

theorem structType (h : Walks R γ) (hn : Nests R p q) (c : Cursor) :
    R _ c (Reader.structType p) (Reader.structType q) :=
  h.bind (h.expect c _ _) fun _ d ↦ h.bind (h.expect d _ _) fun _ d ↦ h.bind (hn.fields d) fun _ d ↦
    h.bind (h.expect d _ _) fun _ d ↦ h.bind_pure (h.range d _ _)

theorem bracketed (h : Walks R γ) (hp : ∀ c, R TypeExpr c p q) (c : Cursor) (start : Nat) :
    R _ c (Reader.bracketed p start) (Reader.bracketed q start) := by
  refine h.bind (h.eat c _) fun _ d ↦ ite rfl (h.spanning hp d start .slice)
    (h.bind (h.expect d _ _) fun t d ↦ ?_)
  dsimp only
  split
  · exact h.rejected d _
  · rename_i length _
    exact h.bind (h.expect d _ _) fun _ d ↦ h.spanning hp d start (.array length)

theorem typeOver (h : Walks R γ) (hn : Nests R p q) (c : Cursor) :
    R _ c (Reader.typeOver p) (Reader.typeOver q) := by
  refine h.cursor ?_
  rw [h.head?]
  split
  · exact h.reject c _
  rename_i t _
  dsimp only
  split
  · exact h.typeName c
  · exact h.bind (h.eat c _) fun _ d ↦ h.spanning hn.type d t.span.start .pointer
  · exact h.bind (h.eat c _) fun _ d ↦ h.bracketed hn.type d t.span.start
  · exact h.bind (h.eat c _) fun _ d ↦ h.bind (h.expect d _ _) fun _ d ↦
      h.bind (hn.type d) fun key d ↦
      h.bind (h.expect d _ _) fun _ d ↦ h.spanning hn.type d t.span.start (.map key)
  · exact h.bind (h.eat c _) fun _ d ↦ h.bind (h.eat d _) fun taken d ↦
      h.spanning hn.type d t.span.start _
  · exact h.bind (h.eat c _) fun _ d ↦ h.bind (h.expect d _ _) fun _ d ↦
      h.spanning hn.type d t.span.start (.chan .recv)
  · exact h.bind (h.eat c _) fun _ d ↦ h.bind (h.signature hn.type hn.params d) fun _ d ↦
      h.bind_pure (h.range d _ _)
  · exact h.interfaceType hn c
  · exact h.structType hn c
  · exact h.bind (h.eat c _) fun _ d ↦ h.bind (hn.type d) fun _ d ↦ h.bind_pure (h.expect d _ _)
  · exact h.reject c _

end Types

section Groups

theorem groupRound (h : Walks R γ) {what : String} {item item' : Reader α}
    {rest rest' : Reader (Clause α)} (hitem : ∀ c, R _ c item item') (hrest : ∀ c, R _ c rest rest')
    (c : Cursor) :
    R _ c (Reader.groupRound what item rest) (Reader.groupRound what item' rest') := by
  refine h.bind (h.skipSemicolons c) fun _ d ↦
    h.cursor (ite (by simp only [h.isAt]) (h.pure d _) ?_)
  refine h.bind (h.attempt (hitem d)) fun x d ↦ ?_
  cases x with
  | error problem => exact h.pure d _
  | ok x =>
    refine h.bind (h.attempt (h.terminator d what)) fun ended d ↦ ?_
    cases ended with
    | error problem => exact h.pure d _
    | ok => exact h.bind_pure (hrest d)

end Groups

end Walks

end Understudy.Reader
