/-!
# Fill policies

When a time bucket holds no rows, a value for it may have to be made up.  A set of fill policies
says in which ways that is possible.

* `FillPolicies.contains` : one set includes another.
* `FillPolicies.names` : the named sets included in a set.
-/

namespace TimeWeighted

/-- A set of fill policies, one bit each. -/
structure FillPolicies where
  /-- The bits of the policies in the set. -/
  bits : UInt8
  deriving DecidableEq, Repr

namespace FillPolicies

/-- Leave empty buckets out. -/
def none : FillPolicies := ⟨1⟩

/-- Fill with null. -/
def null : FillPolicies := ⟨2⟩

/-- Carry the last known value forward. -/
def previous : FillPolicies := ⟨4⟩

/-- Interpolate between neighbours. -/
def linear : FillPolicies := ⟨8⟩

/-- Fill with a constant. -/
def value : FillPolicies := ⟨16⟩

/-- The policies of either set. -/
def union (a b : FillPolicies) : FillPolicies :=
  ⟨a.bits ||| b.bits⟩

instance : OrOp FillPolicies where
  or := union

/-- Every policy. -/
def all : FillPolicies :=
  none ||| null ||| previous ||| linear ||| value

/-- Whether every policy of `b` is in `a`. -/
def contains (a b : FillPolicies) : Bool :=
  a.bits &&& b.bits == b.bits

/-- The sets that have names. -/
def named : List (String × FillPolicies) :=
  [("NONE", none), ("NULL", null), ("PREV", previous), ("LINEAR", linear), ("VALUE", value),
    ("ALL", all)]

/-- The set with a name. -/
def ofName? (name : String) : Option FillPolicies :=
  named.lookup name

/-- The names of all sets included in a set. -/
def names (policies : FillPolicies) : List String :=
  (named.filter fun entry => policies.contains entry.2).map (·.1)

end FillPolicies

end TimeWeighted
