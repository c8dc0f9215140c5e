import Skaidb.Types.Value

namespace Skaidb.Types

-- The fields of a row in the order of its sorted map. Names order by their bytes.
abbrev Document := List (String × Value)

namespace Document

def insert (name : String) (v : Value) : Document → Document
  | [] => [(name, v)]
  | (other, w) :: fields =>
    if utf8 name < utf8 other then (name, v) :: (other, w) :: fields
    else if name = other then (name, v) :: fields
    else (other, w) :: insert name v fields

theorem insert_last {doc : Document} (h : ∀ f ∈ doc, utf8 f.1 < utf8 name) :
    doc.insert name v = doc ++ [(name, v)] := by
  induction doc with
  | nil => rfl
  | cons f doc ih =>
    obtain ⟨hf, hdoc⟩ := List.forall_mem_cons.mp h
    have hne : name ≠ f.1 := fun heq => List.lt_irrefl _ (heq ▸ hf)
    rw [insert, if_neg (List.lt_asymm hf), if_neg hne, ih hdoc, List.cons_append]

def get (doc : Document) (name : String) : Option Value :=
  (doc.find? (fun f => f.1 = name)).map Prod.snd

def segments : List Char → List (List Char)
  | [] => [[]]
  | c :: cs =>
    if c = '.' then [] :: segments cs
    else match segments cs with
      | [] => [[c]]
      | word :: words => (c :: word) :: words

-- Every part but the last must name a nested document.
def descend : Document → List String → Option Value
  | _, [] => none
  | doc, [last] => doc.get last
  | doc, first :: rest =>
    match doc.get first with
    | some (.document inner) => descend inner rest
    | _ => none

def getPath (doc : Document) (path : String) : Option Value :=
  doc.descend ((segments path.toList).map String.ofList)

end Document

end Skaidb.Types
