import AvroDerive.Proofs.OutputReference

/-! # Definitions before references

The types of a document are ordered by the names they depend on before repeated definitions are
evicted. A reference then comes behind the definition of its name, with few exceptions. -/
namespace AvroDerive.Convert

open AvroType

section

variable {cfg : Setting} {j : Json} {location : String} {s : State}

end

end AvroDerive.Convert
