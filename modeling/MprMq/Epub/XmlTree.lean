import MprMq.Base.Status
import MprMq.Lib.SiblingTree
set_option autoImplicit false

/-! The trees that `TXMLReader` walks, and what it tells of a node. -/

namespace MprMq.Epub
open MprMq.Base MprMq.Lib

inductive XMLNode where
  | element (name : Text) (attrs : List (Text × Text))
  | text (value : Text)
  deriving DecidableEq, Repr

/-- A pointer; `child` and `next` are what `GetChild` and `GetNext` lead to. -/
abbrev XMLItem : Type := SiblingTree XMLNode

namespace XMLNode

/-- A node that is no element has no name. -/
def getElement : XMLNode → Text
  | element name _ => name
  | text _ => []

def getAttrString : XMLNode → Text → Text
  | element _ attrs,key => ((attrs.find? fun attr => attr.1 = key).map Prod.snd).getD []
  | text _,_ => []

def isElementNode : XMLNode → Bool
  | element _ _ => true
  | text _ => false

/-- Of an element, the text it begins with. -/
def getValue : XMLNode → XMLItem → Text
  | text value,_ => value
  | element _ _,.node (text value) _ _ => value
  | element _ _,_ => []

@[simp] theorem getElement_element (name : Text) (attrs : List (Text × Text)) :
    (element name attrs).getElement = name := rfl

@[simp] theorem getElement_text (value : Text) : (text value).getElement = [] := rfl

end XMLNode

def skeleton : XMLItem → XMLItem
  | .null => .null
  | .node (.element name attrs) child next =>
    .node (.element name attrs) (skeleton child) (skeleton next)
  | .node (.text _) _ next => skeleton next

/-- A loop that passes over the texts does with a tree what it does with the skeleton. -/
theorem each_skeleton {σ : Type} {R : σ → σ → Prop} {f : XMLNode → XMLItem → σ → σ}
    (htext : ∀ value child s t, R s t → R (f (.text value) child s) t)
    (helement : ∀ name attrs child s t, R s t →
      R (f (.element name attrs) child s) (f (.element name attrs) (skeleton child) t))
    (item : XMLItem) {s t : σ} (h : R s t) : R (item.each f s) ((skeleton item).each f t) := by
  induction item generalizing s t with
  | null => exact h
  | node data child next _ ih =>
    cases data with
    | element name attrs => exact ih (helement name attrs child s t h)
    | text value => exact ih (htext value child s t h)

theorem skeleton_ofList (items : List (XMLNode × XMLItem))
    (h : ∀ item ∈ items, item.1.isElementNode = true) :
    skeleton (.ofList items) = .ofList (items.map fun item => (item.1,skeleton item.2)) := by
  induction items with
  | nil => rfl
  | cons item items ih =>
    obtain ⟨data,child⟩ := item
    have hdata := h (data,child) List.mem_cons_self
    have ih := ih fun item hitem => h item (List.mem_cons_of_mem _ hitem)
    cases data with
    | element name attrs => rw [SiblingTree.ofList,skeleton,ih]; rfl
    | text value => cases hdata

end MprMq.Epub
