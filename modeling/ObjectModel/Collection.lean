import ObjectModel.Slots
import ObjectModel.Value

/-!
# Maps and sets

The members of a map or a set stand in keyed slots, so live iterators are cursors into cells.
Members are told apart by `sameValueZero`: zero loses its sign before a key is stored or looked
up, after which keys are told apart by equality.
-/

namespace ObjectModel

/-- The slots of a map. -/
abbrev MapData := Slots Value Value

namespace MapData

def set (m : MapData) (k v : Value) : MapData := m.insert k.canonicalKey v

def get (m : MapData) (k : Value) : Value := (m.find? k.canonicalKey).getD .undefined

def has (m : MapData) (k : Value) : Bool := m.contains k.canonicalKey

def delete (m : MapData) (k : Value) : MapData := m.erase k.canonicalKey

end MapData

/-- The slots of a set. -/
abbrev SetData := Slots Value Unit

namespace SetData

def add (s : SetData) (v : Value) : SetData := s.insert v.canonicalKey ()

def has (s : SetData) (v : Value) : Bool := s.contains v.canonicalKey

def delete (s : SetData) (v : Value) : SetData := s.erase v.canonicalKey

end SetData

end ObjectModel
