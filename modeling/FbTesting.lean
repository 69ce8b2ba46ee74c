import FbTesting.Base.Text
import FbTesting.Base.Json
import FbTesting.Base.JsonLaws
import FbTesting.Base.Dict
import FbTesting.Base.Traced
import FbTesting.Base.Percent
import FbTesting.Base.Encode
import FbTesting.Base.FileTree
import FbTesting.Base.Segments
import FbTesting.Base.Run
import FbTesting.Base.Regex
import FbTesting.Base.Simulation
import FbTesting.Base.Potential
import FbTesting.Python.Repr
import FbTesting.Python.Datetime
import FbTesting.Node.Value
import FbTesting.Node.Url
import FbTesting.Analyser.Timestamp
import FbTesting.Analyser.Clock
import FbTesting.Analyser.Extract
import FbTesting.Analyser.Main
import FbTesting.Analyser.Stream
import FbTesting.Analyser.Percentages
import FbTesting.Analyser.Outcome
import FbTesting.Analyser.Timeline
import FbTesting.Analyser.Failure
import FbTesting.Analyser.Runs
import FbTesting.Analyser.Hours
import FbTesting.Analyser.Bodies
import FbTesting.Analyser.Vocabulary
import FbTesting.Analyser.Links
import FbTesting.Analyser.LinkDict
import FbTesting.Analyser.WordCount
import FbTesting.Analyser.ChatKeys
import FbTesting.Analyser.WordDump
import FbTesting.Analyser.Orderly
import FbTesting.Analyser.Blocks
import FbTesting.Server.Session
import FbTesting.Server.RunPython
import FbTesting.Server.Pipe
import FbTesting.Server.Routes
import FbTesting.Server.Search
import FbTesting.Server.Identity
import FbTesting.Server.Machine
import FbTesting.Server.Confinement
import FbTesting.Server.UserDir
import FbTesting.Server.Uploads
import FbTesting.Server.Delivery
import FbTesting.Server.Failures
import FbTesting.Server.Store
import FbTesting.Server.Results
import FbTesting.Server.OwnRun
import FbTesting.Server.Drain
import FbTesting.Server.Once
import FbTesting.Server.Restart
import FbTesting.Server.Careful
import FbTesting.Server.Prompt
import FbTesting.Browser.Target
import FbTesting.Browser.Html
import FbTesting.Browser.Links
import FbTesting.Browser.Search
import FbTesting.Browser.Progress
import FbTesting.Browser.Requests
import FbTesting.Browser.LiveSearch
import FbTesting.Browser.BarChart
import FbTesting.Browser.LinkList
import FbTesting.Browser.LinkFinders
import FbTesting.Browser.ChatSearch
import FbTesting.Browser.Archive
import FbTesting.Browser.Tabs
import FbTesting.Browser.Charts
import FbTesting.Browser.Served
