/-!
# Entities

Inside markup the characters `<`, `>`, `"` and `&` are written as entities.
-/

namespace JackTree.Text

def entity (c : Char) : String :=
  if c = '<' then "&lt;"
  else if c = '>' then "&gt;"
  else if c = '"' then "&quot;"
  else if c = '&' then "&amp;"
  else String.singleton c

def escape (text : String) : String :=
  String.join (text.toList.map entity)

end JackTree.Text
