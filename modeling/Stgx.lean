import Stgx.Aliasing
import Stgx.Commute
import Stgx.Dangling
import Stgx.Declared
import Stgx.GfpDominants
import Stgx.Lib.FixedPriority
import Stgx.Located
import Stgx.Normal
import Stgx.Printing
import Stgx.Priorities
import Stgx.ReadInt
import Stgx.Rebuild
import Stgx.Renaming
import Stgx.Reordered
import Stgx.Reports
import Stgx.Resume
import Stgx.RoundTrip
import Stgx.Runs
import Stgx.Stepwise
import Stgx.Undo
import Stgx.Verdict
