import Stylesheet.Value

/-!
# The declarations of a block

The declarations of a block are listed in the order in which they take effect, each property at most once.
Two ways of adding one are told apart:

* `insert` reads a declaration behind all others: an important value gives way to important ones only, and
  a value that takes the place of another moves to the end;
* `set` replaces a value where it stands.

Every operation comes with the fact that no property occurs twice, so that the type itself says so.
-/

namespace Stylesheet

/-- A property with its value. -/
abbrev Declaration := String × Value

/-- The declarations of a block, in order. -/
structure Declarations where
  entries : List Declaration
  /-- No property occurs twice. -/
  distinct : (entries.map Prod.fst).Nodup
deriving DecidableEq, Repr

namespace Declarations

def empty : Declarations := ⟨[], by simp⟩

instance : Inhabited Declarations := ⟨empty⟩

def isEmpty (d : Declarations) : Bool := d.entries.isEmpty

def size (d : Declarations) : Nat := d.entries.length

/-- The value of a property. -/
def get? (d : Declarations) (property : String) : Option Value := d.entries.lookup property

def contains (d : Declarations) (property : String) : Bool := d.entries.any (·.1 == property)

/-- The place of a property in the order. -/
def position? (d : Declarations) (property : String) : Option Nat :=
  d.entries.findIdx? (·.1 == property)

/-! ## Removing and placing -/

/-- The entries of all properties but one. -/
def without (entries : List Declaration) (property : String) : List Declaration :=
  entries.filter (·.1 != property)

theorem nodup_without {entries : List Declaration} (h : (entries.map Prod.fst).Nodup)
    (property : String) : ((without entries property).map Prod.fst).Nodup :=
  h.sublist (List.filter_sublist.map _)

theorem not_mem_without (entries : List Declaration) (property : String) :
    property ∉ (without entries property).map Prod.fst := by
  simp [without]

/-- Removes a property and keeps the order of the others. -/
def erase (d : Declarations) (property : String) : Declarations :=
  ⟨without d.entries property, nodup_without d.distinct property⟩

/-- The entries with a new property at a place. -/
def placed (entries : List Declaration) (i : Nat) (property : String) (value : Value) :
    List Declaration :=
  entries.take i ++ (property, value) :: entries.drop i

theorem nodup_placed {entries : List Declaration} (h : (entries.map Prod.fst).Nodup) (i : Nat)
    {property : String} (hp : property ∉ entries.map Prod.fst) (value : Value) :
    ((placed entries i property value).map Prod.fst).Nodup := by
  have hperm : ((placed entries i property value).map Prod.fst).Perm
      (property :: entries.map Prod.fst) := by
    simp only [placed, List.map_append, List.map_cons]
    refine List.perm_middle.trans (List.Perm.cons _ ?_)
    rw [← List.map_append, List.take_append_drop]
  exact hperm.nodup_iff.mpr (List.nodup_cons.mpr ⟨hp, h⟩)

/-- Puts a property at a place of the order, or at its end. A value it has already is removed first. -/
def insertAt (d : Declarations) (i : Nat) (property : String) (value : Value) : Declarations :=
  ⟨placed (without d.entries property) i property value,
    nodup_placed (nodup_without d.distinct property) i (not_mem_without d.entries property) value⟩

/-! ## The cascade -/

/-- A value has a text, and does not try to replace an important value without being important. -/
def accepts (d : Declarations) (property : String) (value : Value) : Bool :=
  !value.text.isEmpty && (value.important || !(d.get? property).any (·.important))

/-- Reads a declaration behind all others. -/
def insert (d : Declarations) (property : String) (value : Value) : Declarations :=
  if d.accepts property value then d.insertAt d.size property value else d

/-- Reads declarations one after the other. -/
def insertAll (d : Declarations) (entries : List Declaration) : Declarations :=
  entries.foldl (fun d e => d.insert e.1 e.2) d

/-- The declarations read from a list. -/
def ofList (entries : List Declaration) : Declarations := empty.insertAll entries

/-- Reads the second declarations behind the first. -/
def merge (d e : Declarations) : Declarations := d.insertAll e.entries

/-! ## Replacing in place -/

/-- The entries with the value of one property replaced. -/
def replaced (entries : List Declaration) (property : String) (value : Value) : List Declaration :=
  entries.map fun e => if e.1 == property then (e.1, value) else e

theorem map_fst_replaced (entries : List Declaration) (property : String) (value : Value) :
    (replaced entries property value).map Prod.fst = entries.map Prod.fst := by
  simp only [replaced, List.map_map]
  refine List.map_congr_left fun e _ => ?_
  simp only [Function.comp_apply]
  split <;> rfl

/-- Replaces the value of a property where it stands, or puts it at the end. -/
def set (d : Declarations) (property : String) (value : Value) : Declarations :=
  if d.contains property then
    ⟨replaced d.entries property value, by rw [map_fst_replaced]; exact d.distinct⟩
  else d.insertAt d.size property value

/-! ## Comparison -/

/-- The same properties with the same values, in whatever order. -/
def sameAs (d e : Declarations) : Bool :=
  d.size == e.size && d.entries.all fun x => e.get? x.1 == some x.2

end Declarations

end Stylesheet
