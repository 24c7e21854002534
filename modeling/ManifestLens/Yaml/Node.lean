import ManifestLens.Text.Quoted
import ManifestLens.Yaml.Mark
import ManifestLens.Yaml.Tag

/-!
# Nodes of YAML documents

A document is a tree of scalars, sequences and mappings, each with its tag and with the places where it starts and
ends.
-/

namespace ManifestLens.Yaml

/-- A part of a document. -/
inductive Node where
  | scalar (tag text : String) (start stop : Mark)
  | sequence (tag : String) (items : List Node) (start stop : Mark)
  | mapping (tag : String) (pairs : List (Node × Node)) (start stop : Mark)
  deriving Inhabited

mutual

/-- Equality of nodes can be decided. -/
def Node.decEq : (a b : Node) → Decidable (a = b)
  | .scalar tag text start stop, .scalar tag' text' start' stop' =>
    decidable_of_decidable_of_iff (p := tag = tag' ∧ text = text' ∧ start = start' ∧ stop = stop') (by simp)
  | .sequence tag items start stop, .sequence tag' items' start' stop' =>
    have := decEqItems items items'
    decidable_of_decidable_of_iff (p := tag = tag' ∧ items = items' ∧ start = start' ∧ stop = stop') (by simp)
  | .mapping tag pairs start stop, .mapping tag' pairs' start' stop' =>
    have := decEqPairs pairs pairs'
    decidable_of_decidable_of_iff (p := tag = tag' ∧ pairs = pairs' ∧ start = start' ∧ stop = stop') (by simp)
  | .scalar .., .sequence .. => .isFalse nofun
  | .scalar .., .mapping .. => .isFalse nofun
  | .sequence .., .scalar .. => .isFalse nofun
  | .sequence .., .mapping .. => .isFalse nofun
  | .mapping .., .scalar .. => .isFalse nofun
  | .mapping .., .sequence .. => .isFalse nofun

def decEqItems : (a b : List Node) → Decidable (a = b)
  | [], [] => .isTrue rfl
  | x :: xs, y :: ys =>
    have := x.decEq y
    have := decEqItems xs ys
    decidable_of_decidable_of_iff (p := x = y ∧ xs = ys) (by simp)
  | [], _ :: _ => .isFalse nofun
  | _ :: _, [] => .isFalse nofun

def decEqPairs : (a b : List (Node × Node)) → Decidable (a = b)
  | [], [] => .isTrue rfl
  | (k, v) :: xs, (k', v') :: ys =>
    have := k.decEq k'
    have := v.decEq v'
    have := decEqPairs xs ys
    decidable_of_decidable_of_iff (p := (k = k' ∧ v = v') ∧ xs = ys) (by simp)
  | [], _ :: _ => .isFalse nofun
  | _ :: _, [] => .isFalse nofun

end

instance : DecidableEq Node := Node.decEq

/-- What a node holds. -/
inductive Content where
  | text (s : String)
  | items (items : List Node)
  | pairs (pairs : List (Node × Node))
  deriving Inhabited

namespace Node

def tag : Node → String
  | .scalar tag _ _ _ => tag
  | .sequence tag _ _ _ => tag
  | .mapping tag _ _ _ => tag

def start : Node → Mark
  | .scalar _ _ start _ => start
  | .sequence _ _ start _ => start
  | .mapping _ _ start _ => start

def stop : Node → Mark
  | .scalar _ _ _ stop => stop
  | .sequence _ _ _ stop => stop
  | .mapping _ _ _ stop => stop

def content : Node → Content
  | .scalar _ text _ _ => .text text
  | .sequence _ items _ _ => .items items
  | .mapping _ pairs _ _ => .pairs pairs

/-- How messages of the reader name a node. -/
def shape : Node → String
  | .scalar _ _ _ _ => "scalar"
  | .sequence _ _ _ _ => "sequence"
  | .mapping _ _ _ _ => "mapping"

/-- How messages name the type of a node. -/
def typeName : Node → String
  | .scalar _ _ _ _ => "ScalarNode"
  | .sequence _ _ _ _ => "SequenceNode"
  | .mapping _ _ _ _ => "MappingNode"

/-- The text of a node in a message, given the text of what it holds. -/
def described (typeName tag content : String) : String :=
  typeName ++ "(tag=" ++ Text.quoted tag ++ ", value=" ++ content ++ ")"

mutual

/-- A node in a message. -/
def describe : Node → String
  | .scalar tag text _ _ => described "ScalarNode" tag (Text.quoted text)
  | .sequence tag items _ _ => described "SequenceNode" tag ("[" ++ ", ".intercalate (describeItems items) ++ "]")
  | .mapping tag pairs _ _ => described "MappingNode" tag ("[" ++ ", ".intercalate (describePairs pairs) ++ "]")

def describeItems : List Node → List String
  | [] => []
  | n :: rest => n.describe :: describeItems rest

def describePairs : List (Node × Node) → List String
  | [] => []
  | (key, value) :: rest => ("(" ++ key.describe ++ ", " ++ value.describe ++ ")") :: describePairs rest

end

end Node

/-- What a node holds, in a message: a text as it stands. -/
def Content.describe : Content → String
  | .text s => s
  | .items members => "[" ++ ", ".intercalate (Node.describeItems members) ++ "]"
  | .pairs members => "[" ++ ", ".intercalate (Node.describePairs members) ++ "]"

/-- A text that is empty, or a collection without members. -/
def Content.isEmpty : Content → Bool
  | .text s => s.isEmpty
  | .items members => members.isEmpty
  | .pairs members => members.isEmpty

/-- What a node holds is the given text. -/
def Content.isText (content : Content) (wanted : String) : Bool :=
  match content with
  | .text s => s == wanted
  | _ => false

end ManifestLens.Yaml
