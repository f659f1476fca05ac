import LayerNet.Keyed
import LayerNet.Reduction
import LayerNet.Special

/-!
# The catalog of layer types

Whatever depends on the type of a node is looked up here: whether it is special, whether it may
receive several inputs, and which reduction it declares for them.
-/

namespace LayerNet

/-- What the catalog knows about a layer type. -/
structure LayerType where
  name : String
  description : String := ""
  /-- The kind of special node, if nodes of this type own a subgraph. -/
  special : Option SpecialKind := none
  /-- Whether nodes of this type merge several inputs. -/
  merges : Bool := false
  /-- The reduction that the type declares. -/
  reduction : Option Reduction := none
  deriving DecidableEq, Repr, Inhabited

namespace LayerType

/-- Nodes of the type own a subgraph. -/
def withSpecial (kind : SpecialKind) (t : LayerType) : LayerType := { t with special := some kind }

/-- Nodes of the type merge their inputs, by a reduction chosen elsewhere. -/
def merging (t : LayerType) : LayerType := { t with merges := true }

/-- Nodes of the type merge their inputs by `r`. -/
def withReduction (r : Reduction) (t : LayerType) : LayerType :=
  { t with merges := true, reduction := some r }

end LayerType

/-- Layer types by their names. -/
abbrev Catalog := Keyed LayerType.name

namespace Catalog

/-- The merging type whose nodes name their reduction in their first string parameter. -/
def chosenReduction : String := "LayerParallel"

/-- The layer types that an editor starts with, by their names. -/
def builtin : Catalog where
  toList :=
    [ ⟨"LayerActivation", "Element-wise activation", none, false, none⟩,
      ⟨"LayerAveragePooling2D", "2D average pooling", none, false, none⟩,
      ⟨"LayerBatchNormalization", "Batch normalization", none, false, none⟩,
      ⟨"LayerBias", "Trainable bias", none, false, none⟩,
      ⟨"LayerChannelBias", "Per-channel bias", none, false, none⟩,
      ⟨"LayerConvolution2D", "2D convolution", none, false, none⟩,
      ⟨"LayerDense", "Fully connected layer with bias", none, false, none⟩,
      ⟨"LayerDenseNoBias", "Fully connected layer without bias", none, false, none⟩,
      ⟨"LayerDropout", "Dropout regularization", none, false, none⟩,
      ⟨"LayerGRU", "Recurrent layer", some .recurrent, false, none⟩,
      ⟨"LayerGaussianNoise", "Additive gaussian noise", none, false, none⟩,
      ⟨"LayerGlobalAffine", "Global scale and shift", none, false, none⟩,
      ⟨"LayerLSTM", "Recurrent layer", some .recurrent, false, none⟩,
      ⟨"LayerMaxPool2D", "2D max pooling", none, false, none⟩,
      ⟨chosenReduction, "Merge with configurable reduction", none, true, none⟩,
      ⟨"LayerParallelAverage", "Averages parallel branches", none, true, some .average⟩,
      ⟨"LayerParallelConcat", "Concatenates parallel branches", none, true, some .concat⟩,
      ⟨"LayerParallelSum", "Sums parallel branches", none, true, some .sum⟩,
      ⟨"LayerRNN", "Recurrent layer", some .recurrent, false, none⟩,
      ⟨"LayerRepetitive", "Repeats its inner subgraph", some .repetitive, false, none⟩,
      ⟨"LayerRouter", "Routes input across expert branches", some .router, false, none⟩,
      ⟨"LayerSimpleRNN", "Recurrent layer", some .recurrent, false, none⟩,
      ⟨"LayerSimplestRNN", "Recurrent layer", some .recurrent, false, none⟩,
      ⟨"LayerSoftmax", "Softmax", none, false, none⟩,
      ⟨"LayerSoftmin", "Softmin", none, false, none⟩,
      ⟨"LayerStacked", "Stacks its inner subgraph", some .stacked, false, none⟩,
      ⟨"LayerZeroPadding2D", "2D zero padding", none, false, none⟩ ]
  sorted := by decide +kernel

/-- The kind of special node that a type stands for; unknown types are plain. -/
def specialKind (c : Catalog) (layerType : String) : Option SpecialKind :=
  (c.get? layerType).bind LayerType.special

/-- Whether nodes of a type may receive several inputs. -/
def isMerge (c : Catalog) (layerType : String) : Bool :=
  match c.get? layerType with
  | some t => t.merges
  | none => false

/-- The reduction that a node declares by its type and its string parameters.  A node of the type
`chosenReduction` declares the one named by its first parameter, unless this is blank. -/
def reductionFor (c : Catalog) (layerType : String) (stringParams : List String) :
    Option Reduction :=
  match c.get? layerType with
  | none => none
  | some t =>
    if layerType = chosenReduction then
      match stringParams with
      | name :: _ => if Text.trim name = "" then t.reduction else some (Reduction.ofName name)
      | [] => t.reduction
    else t.reduction

end Catalog

end LayerNet
