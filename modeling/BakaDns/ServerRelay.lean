import BakaDns.AnswerBytes
import BakaDns.RelayCase
import BakaDns.ServerLocal

/-!
# From the relay file to the client

The whole way of a local answer: the lines of the relay file, the database that `init_database`
makes of them, a server in any of its runs, and what the client decodes.
-/

namespace BakaDns
open CBytes ReadTrace LinkedHeap Threads

variable {db : BucketTree} {job : Job} {query : Message} {q : MessageQuestion}
  {rrs : List ResourceRecord}

end BakaDns
