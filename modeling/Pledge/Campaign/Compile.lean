-- From the terms of a campaign to a container. The script does not depend on
-- the terms, so all campaigns share one code segment.
import Pledge.Campaign.Script
import Pledge.Container

namespace Pledge.Campaign

structure Compiled where
  terms : Terms
  layout : Layout
  assembled : Assembled
  data : Bytes
  container : Container
  deriving DecidableEq, Repr

namespace Compiled

def bytes (c : Compiled) : Bytes := Wire.toBytes c.container

/-- The digest of the code, the same for all terms. -/
def codeHash (c : Compiled) : Digest := c.container.codeHash

end Compiled

def build (t : Terms) : Except Error Compiled := do
  let layout := Layout.standard
  let data := layout.dataSegment Layout.fits_standard t
  let assembled ← (script layout).assemble.mapError Error.internal
  let container ← (Container.wrap assembled.code data).mapError Error.internal
  return ⟨t, layout, assembled, data, container⟩

/-- Compiles terms, the awardee given as text, to the bytes of a container. -/
def compile (window goal : Word) (awardee : String) : Except Error Bytes := do
  let t ← Terms.ofText window goal awardee
  return (← build t).bytes

end Pledge.Campaign
