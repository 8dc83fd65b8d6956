import Olric.Kvstore.Spill
import Olric.Kvstore.Shadowing
import Olric.Kvstore.Export
import Olric.Kvstore.Range
import Olric.Dmap.Exclusion
import Olric.Dmap.Put
import Olric.Kvstore.Refinement
import Olric.Kvstore.Accounting
