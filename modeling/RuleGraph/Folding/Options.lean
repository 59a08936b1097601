import RuleGraph.Rule

/-! # Options of folding -/

namespace RuleGraph

/-- What a caller may ask of folding. -/
structure Options where
  /-- Rules that are never folded, and in which no reference is replaced. -/
  avoid : Option (Rule → Bool) := none
  /-- Rules that stay, as well as all rules they refer to.  If this is given, all other rules
  that are not referred to are deleted. -/
  keep : Option (Rule → Bool) := none
  /-- The attribute that records how far rules were folded. -/
  marker : String := "optimized"

namespace Options

def avoids (o : Options) (r : Rule) : Bool := o.avoid.any fun p => p r

def keeps (o : Options) (r : Rule) : Bool := o.keep.any fun p => p r

end Options

end RuleGraph
