import OxiSql.Btree.Cursor

namespace OxiSql.Btree
variable {κ : Type}

/-! The tree a page is the root of. Height 0 is a leaf, so all leaves are at one depth. -/

/-- Beside bounding its left child, a cell of an interior page is an entry in an index only. -/
def divider (kind : Kind) (key : κ) : List κ :=
  match kind with
  | .table => []
  | .index => [key]

def entries (pages : Pages κ) : Nat → Nat → List κ
  | 0, page =>
    match pages page with
    | .ok (.leaf _ cells) => cells
    | _ => []
  | h + 1, page =>
    match pages page with
    | .ok (.interior kind cells right) =>
      cells.flatMap (fun cell => entries pages h cell.1 ++ divider kind cell.2) ++
        entries pages h right
    | _ => []

/-- What stands in a tree: the rows of the leaves and the cells of the interior pages. -/
inductive Item (κ : Type) where
  | row (key : κ)
  | key (key : κ)

def items (pages : Pages κ) : Nat → Nat → List (Item κ)
  | 0, page =>
    match pages page with
    | .ok (.leaf _ cells) => cells.map .row
    | _ => []
  | h + 1, page =>
    match pages page with
    | .ok (.interior _ cells right) =>
      cells.flatMap (fun cell => items pages h cell.1 ++ [.key cell.2]) ++ items pages h right
    | _ => []

/-- A page has a cell count of two bytes. -/
def maxCellCount : Nat := 65535

/-- The pages below a page are of one kind, leaves at height 0 and interior pages above. -/
def Shape (pages : Pages κ) (kind : Kind) : Nat → Nat → Prop
  | 0, page => ∃ cells, pages page = .ok (.leaf kind cells) ∧ cells.length ≤ maxCellCount
  | h + 1, page => ∃ cells right, pages page = .ok (.interior kind cells right) ∧
      cells.length ≤ maxCellCount ∧ (∀ cell ∈ cells, Shape pages kind h cell.1) ∧
      Shape pages kind h right

variable {pages : Pages κ}

theorem entries_leaf (hp : pages page = .ok (.leaf kind cells)) : entries pages 0 page = cells := by
  simp [entries,hp]

theorem entries_interior (hp : pages page = .ok (.interior kind cells right)) : entries pages (h + 1) page =
      cells.flatMap (fun cell => entries pages h cell.1 ++ divider kind cell.2) ++ entries pages h right := by
  simp [entries,hp]

theorem items_leaf (hp : pages page = .ok (.leaf kind cells)) : items pages 0 page = cells.map .row := by
  simp [items,hp]

theorem items_interior (hp : pages page = .ok (.interior kind cells right)) : items pages (h + 1) page =
      cells.flatMap (fun cell => items pages h cell.1 ++ [.key cell.2]) ++ items pages h right := by
  simp [items,hp]

instance decidableShape (pages : Pages κ) (kind : Kind) : ∀ h page, Decidable (Shape pages kind h page)
  | 0, page =>
    match hp : pages page with
    | .ok (.leaf found cells) =>
      decidable_of_iff (found = kind ∧ cells.length ≤ maxCellCount) (by
        simp only [Shape, hp, Except.ok.injEq, PageContent.leaf.injEq]
        constructor
        · rintro ⟨rfl, hl⟩
          exact ⟨cells, ⟨rfl, rfl⟩, hl⟩
        · rintro ⟨_, ⟨rfl, rfl⟩, hl⟩
          exact ⟨rfl, hl⟩)
    | .ok (.interior ..) | .error _ => isFalse (by simp [Shape, hp])
  | h + 1, page =>
    match hp : pages page with
    | .ok (.interior found cells right) =>
      have := decidableShape pages kind h
      decidable_of_iff (found = kind ∧ cells.length ≤ maxCellCount ∧
          (∀ cell ∈ cells, Shape pages kind h cell.1) ∧ Shape pages kind h right) (by
        simp only [Shape, hp, Except.ok.injEq, PageContent.interior.injEq]
        constructor
        · rintro ⟨rfl, hrest⟩
          exact ⟨cells, right, ⟨rfl, rfl, rfl⟩, hrest⟩
        · rintro ⟨_, _, ⟨rfl, rfl, rfl⟩, hrest⟩
          exact ⟨rfl, hrest⟩)
    | .ok (.leaf ..) | .error _ => isFalse (by simp [Shape, hp])

end OxiSql.Btree
