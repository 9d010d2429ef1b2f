import MachineLang.Tree.Bare
import MachineLang.Token.Basic

/-!
# Moving trees

A tree whose places are moved: the tree of the same program read at another place of a source. Where
the places are all forgotten, nothing but the bare tree is left (`Node.relocated_invalid`).
-/

namespace MachineLang

variable (f : Location → Location)

/-- The range between the moved places. -/
def Span.relocated (s : Span) : Span := ⟨f s.start, f s.stop⟩

/-- The token between the moved places. -/
def Token.relocated (t : Token) : Token := ⟨t.kind, t.value, f t.location, f t.stop⟩

/-- The name at the moved place. -/
def Identifier.relocated (id : Identifier) : Identifier := ⟨id.name, id.span.relocated f⟩

namespace Node

mutual

/-- The tree with its places moved, each by the same function. -/
def relocated : Node → Node
  | .root statements span => .root (relocatedList statements) (span.relocated f)
  | .finite name body span => .finite (name.relocated f) body.relocated (span.relocated f)
  | .pushdown name stackNames body span =>
    .pushdown (name.relocated f) (stackNames.map (Identifier.relocated f)) body.relocated
      (span.relocated f)
  | .turing name tapes body span =>
    .turing (name.relocated f) (tapes.map (Identifier.relocated f)) body.relocated
      (span.relocated f)
  | .grammar name start body span =>
    .grammar (name.relocated f) (start.map (Identifier.relocated f)) body.relocated
      (span.relocated f)
  | .assignment kind name value span =>
    .assignment kind (name.relocated f) value.relocated (span.relocated f)
  | .list items span => .list (relocatedList items) (span.relocated f)
  | .identifier id => .identifier (id.relocated f)
  | .character value span => .character value (span.relocated f)
  | .string value span => .string value (span.relocated f)
  | .qualified tape value span => .qualified (tape.relocated f) value.relocated (span.relocated f)
  | .shift direction span => .shift direction (span.relocated f)
  | .nonTerminal name span => .nonTerminal name (span.relocated f)
  | .initial state span => .initial (state.relocated f) (span.relocated f)
  | .final states span => .final (states.map (Identifier.relocated f)) (span.relocated f)
  | .print message span => .print message (span.relocated f)
  | .test automaton inputs span => .test (automaton.relocated f) inputs (span.relocated f)
  | .production head alternatives span =>
    .production head (relocatedLists alternatives) (span.relocated f)
  | .finiteTransition source condition target span =>
    .finiteTransition (source.relocated f) condition.relocated (target.relocated f)
      (span.relocated f)
  | .pushdownTransition source condition pop target push span =>
    .pushdownTransition (source.relocated f) condition.relocated (relocatedList pop)
      (target.relocated f) (relocatedList push) (span.relocated f)
  | .turingTransition source read target write moves span =>
    .turingTransition (source.relocated f) (relocatedList read) (target.relocated f)
      (relocatedList write) (relocatedList moves) (span.relocated f)
  | .binary op left right span => .binary op left.relocated right.relocated (span.relocated f)
  | .unary op operand span => .unary op operand.relocated (span.relocated f)

/-- The trees with their places moved. -/
def relocatedList : List Node → List Node
  | [] => []
  | node :: nodes => node.relocated :: relocatedList nodes

/-- The alternatives of a production with their places moved. -/
def relocatedLists : List (List Node) → List (List Node)
  | [] => []
  | nodes :: rest => relocatedList nodes :: relocatedLists rest

end

variable {f} {g : Location → Location}

/-- Each tree of a list is moved. -/
theorem relocatedList_eq_map (nodes : List Node) :
    relocatedList f nodes = nodes.map (relocated f) := by
  induction nodes with
  | nil => rfl
  | cons node nodes ih => rw [relocatedList, ih, List.map_cons]

/-- Each tree of the alternatives is moved. -/
theorem relocatedLists_eq_map (lists : List (List Node)) :
    relocatedLists f lists = lists.map (List.map (relocated f)) := by
  induction lists with
  | nil => rfl
  | cons nodes lists ih => rw [relocatedLists, ih, List.map_cons, relocatedList_eq_map]

/-- The range of a moved tree is the moved range. -/
theorem span_relocated (n : Node) : (n.relocated f).span = n.span.relocated f := by
  cases n <;> rw [relocated] <;> rfl

/-- The items of a moved list are the moved items. -/
theorem items_relocated (n : Node) : (n.relocated f).items = n.items.map (relocated f) := by
  cases n with
  | list items span => exact relocatedList_eq_map items
  | _ => rw [relocated]; simp only [items, List.map_cons, List.map_nil, relocated]

/-- A moved node is a name if the node is. -/
theorem identifier?_relocated (n : Node) :
    (n.relocated f).identifier? = n.identifier?.map (Identifier.relocated f) := by
  cases n <;> rw [relocated] <;> rfl

/-- A moved node is a string if the node is. -/
theorem string?_relocated (n : Node) : (n.relocated f).string? = n.string? := by
  cases n <;> rw [relocated] <;> rfl

mutual

/-- Moving a tree twice is moving it once. -/
theorem relocated_relocated : ∀ n : Node, (n.relocated f).relocated g = n.relocated (g ∘ f)
  | .root statements _ => by simp only [relocated, relocatedList_relocated statements]; rfl
  | .finite _ body _ => by simp only [relocated, relocated_relocated body]; rfl
  | .pushdown _ _ body _ => by simp only [relocated, relocated_relocated body, List.map_map]; rfl
  | .turing _ _ body _ => by simp only [relocated, relocated_relocated body, List.map_map]; rfl
  | .grammar _ start body _ =>
    by simp only [relocated, relocated_relocated body, Option.map_map]; rfl
  | .assignment _ _ value _ => by simp only [relocated, relocated_relocated value]; rfl
  | .list items _ => by simp only [relocated, relocatedList_relocated items]; rfl
  | .identifier _ => by simp only [relocated]; rfl
  | .character _ _ => by simp only [relocated]; rfl
  | .string _ _ => by simp only [relocated]; rfl
  | .qualified _ value _ => by simp only [relocated, relocated_relocated value]; rfl
  | .shift _ _ => by simp only [relocated]; rfl
  | .nonTerminal _ _ => by simp only [relocated]; rfl
  | .initial _ _ => by simp only [relocated]; rfl
  | .final _ _ => by simp only [relocated, List.map_map]; rfl
  | .print _ _ => by simp only [relocated]; rfl
  | .test _ _ _ => by simp only [relocated]; rfl
  | .production _ alternatives _ =>
    by simp only [relocated, relocatedLists_relocated alternatives]; rfl
  | .finiteTransition _ condition _ _ =>
    by simp only [relocated, relocated_relocated condition]; rfl
  | .pushdownTransition _ condition pop _ push _ => by
    simp only [relocated, relocated_relocated condition, relocatedList_relocated pop,
      relocatedList_relocated push]
    rfl
  | .turingTransition _ read _ write moves _ => by
    simp only [relocated, relocatedList_relocated read, relocatedList_relocated write,
      relocatedList_relocated moves]
    rfl
  | .binary _ left right _ =>
    by simp only [relocated, relocated_relocated left, relocated_relocated right]; rfl
  | .unary _ operand _ => by simp only [relocated, relocated_relocated operand]; rfl

/-- Moving trees twice is moving them once. -/
theorem relocatedList_relocated :
    ∀ nodes : List Node, relocatedList g (relocatedList f nodes) = relocatedList (g ∘ f) nodes
  | [] => rfl
  | node :: nodes =>
    by simp only [relocatedList, relocated_relocated node, relocatedList_relocated nodes]

/-- Moving alternatives twice is moving them once. -/
theorem relocatedLists_relocated :
    ∀ lists : List (List Node), relocatedLists g (relocatedLists f lists) = relocatedLists
      (g ∘ f) lists
  | [] => rfl
  | nodes :: lists =>
    by simp only [relocatedLists, relocatedList_relocated nodes, relocatedLists_relocated lists]

end

mutual

/-- A tree whose places are not moved is the same. -/
theorem relocated_id : ∀ n : Node, n.relocated id = n
  | .root statements _ => by simp only [relocated, relocatedList_id statements]; rfl
  | .finite _ body _ => by simp only [relocated, relocated_id body]; rfl
  | .pushdown _ stackNames body _ => by
    simp only [relocated, relocated_id body, show stackNames.map (Identifier.relocated id) = _
      from List.map_id _]; rfl
  | .turing _ tapes body _ => by
    simp only [relocated, relocated_id body, show tapes.map (Identifier.relocated id) = _
      from List.map_id _]; rfl
  | .grammar _ start body _ => by
    simp only [relocated, relocated_id body, show start.map (Identifier.relocated id) = _
      from Option.map_id_apply]; rfl
  | .assignment _ _ value _ => by simp only [relocated, relocated_id value]; rfl
  | .list items _ => by simp only [relocated, relocatedList_id items]; rfl
  | .identifier _ => by simp only [relocated]; rfl
  | .character _ _ => by simp only [relocated]; rfl
  | .string _ _ => by simp only [relocated]; rfl
  | .qualified _ value _ => by simp only [relocated, relocated_id value]; rfl
  | .shift _ _ => by simp only [relocated]; rfl
  | .nonTerminal _ _ => by simp only [relocated]; rfl
  | .initial _ _ => by simp only [relocated]; rfl
  | .final states _ => by
    simp only [relocated, show states.map (Identifier.relocated id) = _ from List.map_id _]; rfl
  | .print _ _ => by simp only [relocated]; rfl
  | .test _ _ _ => by simp only [relocated]; rfl
  | .production _ alternatives _ => by simp only [relocated, relocatedLists_id alternatives]; rfl
  | .finiteTransition _ condition _ _ => by simp only [relocated, relocated_id condition]; rfl
  | .pushdownTransition _ condition pop _ push _ => by
    simp only [relocated, relocated_id condition, relocatedList_id pop, relocatedList_id push]
    rfl
  | .turingTransition _ read _ write moves _ => by
    simp only [relocated, relocatedList_id read, relocatedList_id write, relocatedList_id moves]
    rfl
  | .binary _ left right _ => by simp only [relocated, relocated_id left, relocated_id right]; rfl
  | .unary _ operand _ => by simp only [relocated, relocated_id operand]; rfl

/-- Trees whose places are not moved are the same. -/
theorem relocatedList_id : ∀ nodes : List Node, relocatedList id nodes = nodes
  | [] => rfl
  | node :: nodes => by simp only [relocatedList, relocated_id node, relocatedList_id nodes]

/-- Alternatives whose places are not moved are the same. -/
theorem relocatedLists_id : ∀ lists : List (List Node), relocatedLists id lists = lists
  | [] => rfl
  | nodes :: lists => by simp only [relocatedLists, relocatedList_id nodes, relocatedLists_id lists]

end

mutual

/-- A tree whose places are all moved out of the source is the bare tree. -/
theorem relocated_invalid : ∀ n : Node, n.relocated (fun _ => .invalid) = n.bare
  | .root statements _ => by simp only [relocated, bare, relocatedList_invalid statements]; rfl
  | .finite _ body _ => by simp only [relocated, bare, relocated_invalid body]; rfl
  | .pushdown _ _ body _ => by simp only [relocated, bare, relocated_invalid body]; rfl
  | .turing _ _ body _ => by simp only [relocated, bare, relocated_invalid body]; rfl
  | .grammar _ _ body _ => by simp only [relocated, bare, relocated_invalid body]; rfl
  | .assignment _ _ value _ => by simp only [relocated, bare, relocated_invalid value]; rfl
  | .list items _ => by simp only [relocated, bare, relocatedList_invalid items]; rfl
  | .identifier _ => by simp only [relocated, bare]; rfl
  | .character _ _ => by simp only [relocated, bare]; rfl
  | .string _ _ => by simp only [relocated, bare]; rfl
  | .qualified _ value _ => by simp only [relocated, bare, relocated_invalid value]; rfl
  | .shift _ _ => by simp only [relocated, bare]; rfl
  | .nonTerminal _ _ => by simp only [relocated, bare]; rfl
  | .initial _ _ => by simp only [relocated, bare]; rfl
  | .final _ _ => by simp only [relocated, bare]; rfl
  | .print _ _ => by simp only [relocated, bare]; rfl
  | .test _ _ _ => by simp only [relocated, bare]; rfl
  | .production _ alternatives _ =>
    by simp only [relocated, bare, relocatedLists_invalid alternatives]; rfl
  | .finiteTransition _ condition _ _ =>
    by simp only [relocated, bare, relocated_invalid condition]; rfl
  | .pushdownTransition _ condition pop _ push _ => by
    simp only [relocated, bare, relocated_invalid condition, relocatedList_invalid pop,
      relocatedList_invalid push]
    rfl
  | .turingTransition _ read _ write moves _ => by
    simp only [relocated, bare, relocatedList_invalid read, relocatedList_invalid write,
      relocatedList_invalid moves]
    rfl
  | .binary _ left right _ =>
    by simp only [relocated, bare, relocated_invalid left, relocated_invalid right]; rfl
  | .unary _ operand _ => by simp only [relocated, bare, relocated_invalid operand]; rfl

/-- Trees whose places are all moved out of the source are the bare trees. -/
theorem relocatedList_invalid :
    ∀ nodes : List Node, relocatedList (fun _ => .invalid) nodes = bareList nodes
  | [] => rfl
  | node :: nodes =>
    by simp only [relocatedList, bareList, relocated_invalid node, relocatedList_invalid nodes]

/-- Alternatives whose places are all moved out of the source are the bare ones. -/
theorem relocatedLists_invalid :
    ∀ lists : List (List Node), relocatedLists (fun _ => .invalid) lists = bareLists lists
  | [] => rfl
  | nodes :: lists =>
    by simp only [relocatedLists, bareLists, relocatedList_invalid nodes,
      relocatedLists_invalid lists]

end

end Node

end MachineLang
